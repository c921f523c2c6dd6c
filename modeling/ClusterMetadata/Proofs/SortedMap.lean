import ClusterMetadata.SortedMap
import Mathlib.Data.List.Nodup
import Mathlib.Data.List.Perm.Basic

/-!
Maps and lists in the order of their keys. Such a list is determined by its members, and a map made
from a list without repeated keys holds the members of the list.
-/

namespace ClusterMetadata

section

variable {α : Type} [Ord α]

-- Strictly ascending, so no member comes twice.
def Ascending (as : List α) : Prop :=
  as.Pairwise (compare · · = .lt)

variable [Std.TransOrd α]

theorem Ascending.nodup {as : List α} (h : Ascending as) : as.Nodup := by
  refine h.imp fun {a b} hlt he => ?_
  subst he
  simp [Std.ReflOrd.compare_self] at hlt

-- Members that are told apart by what ascends can only stand in one order.
theorem eq_of_ascending_map {β : Type} {f : β → α} {as bs : List β} (ha : Ascending (as.map f))
    (hb : Ascending (bs.map f)) (h : ∀ b, b ∈ as ↔ b ∈ bs) : as = bs := by
  have hp := (List.perm_ext_iff_of_nodup (.of_map f ha.nodup) (.of_map f hb.nodup)).mpr h
  rw [Ascending, List.pairwise_map] at ha hb
  refine hp.eq_of_pairwise (fun a b _ _ hab hba => ?_) ha hb
  rw [Std.OrientedOrd.eq_swap, hba] at hab
  simp at hab

theorem Ascending.eq_of_mem_iff {as bs : List α} (ha : Ascending as) (hb : Ascending bs)
    (h : ∀ a, a ∈ as ↔ a ∈ bs) : as = bs :=
  eq_of_ascending_map (f := id) (by simpa using ha) (by simpa using hb) h

theorem mem_distinct [Std.LawfulEqOrd α] {as : List α} {a : α} : a ∈ distinct as ↔ a ∈ as := by
  classical
  simp [distinct, Std.ExtTreeMap.mem_keys, Std.ExtTreeMap.mem_ofList, Function.comp_def]

theorem nodup_distinct (as : List α) : (distinct as).Nodup :=
  Std.ExtTreeMap.nodup_keys

end

namespace SortedMap

-- What a loop that stops at the first hit computes.
theorem forIn_eq_any {α β : Type} (l : List (α × β)) (p : α → β → Bool) :
    (Id.run do
      for (a, b) in l do
        if p a b then return true
      return false) = l.any fun e => p e.1 e.2 := by
  induction l with
  | nil => rfl
  | cons e l hi =>
    cases h : p e.1 e.2
    case true  => simp [h]
    case false => simpa [h] using hi

variable {α β : Type} [Ord α] [Std.TransOrd α]

theorem any_eq_any_toList (t : SortedMap α β) (p : α → β → Bool) :
    t.any p = t.toList.any fun e => p e.1 e.2 := by
  rw [← forIn_eq_any, ← Std.ExtTreeMap.forIn_eq_forIn_toList]
  have ⟨t⟩ := t
  induction t using Std.ExtDTreeMap.inductionOn
  rfl

theorem values_eq_map_toList (t : SortedMap α β) : t.values = t.toList.map (·.2) := by
  have h : t.values = t.foldr (fun _ b bs => b :: bs) [] := by
    have ⟨t⟩ := t
    induction t using Std.ExtDTreeMap.inductionOn
    rfl
  rw [h, Std.ExtTreeMap.foldr_eq_foldr_toList]
  induction t.toList <;> simp_all

theorem nodup_toList (t : SortedMap α β) : t.toList.Nodup := by
  refine List.Nodup.of_map (f := (·.1)) ?_
  rw [Std.ExtTreeMap.map_fst_toList_eq_keys]
  exact Std.ExtTreeMap.nodup_keys

theorem not_isEmpty_iff {t : SortedMap α β} : ¬t.isEmpty ↔ ∃ (a : α) (b : β), t[a]? = some b := by
  rw [Std.ExtTreeMap.isEmpty_iff, Std.ExtTreeMap.eq_empty_iff_forall_not_mem]
  simp only [not_forall, not_not, Std.ExtTreeMap.mem_iff_isSome_getElem?, Option.isSome_iff_exists]

variable [Std.LawfulEqOrd α]

theorem any_iff {t : SortedMap α β} {p : α → β → Bool} :
    t.any p = true ↔ ∃ a b, t[a]? = some b ∧ p a b = true := by
  simp [any_eq_any_toList, Std.ExtTreeMap.mem_toList_iff_getElem?_eq_some]

theorem mem_values {t : SortedMap α β} {b : β} : b ∈ t.values ↔ ∃ a : α, t[a]? = some b := by
  simp [values_eq_map_toList, Std.ExtTreeMap.mem_toList_iff_getElem?_eq_some]

theorem mem_keys_iff {t : SortedMap α β} {a : α} : a ∈ t.keys ↔ ∃ b, t[a]? = some b := by
  rw [Std.ExtTreeMap.mem_keys, Std.ExtTreeMap.mem_iff_isSome_getElem?, Option.isSome_iff_exists]

theorem getElem?_ofList {l : List (α × β)} (h : (l.map (·.1)).Nodup) {a : α} {b : β} :
    (Std.ExtTreeMap.ofList l compare)[a]? = some b ↔ (a, b) ∈ l := by
  classical
  have hd : l.Pairwise fun e e' => ¬compare e.1 e'.1 = .eq := by
    simpa [List.pairwise_map, List.Nodup] using h
  refine ⟨fun hs => ?_, Std.ExtTreeMap.getElem?_ofList_of_mem Std.ReflOrd.compare_self hd⟩
  have hm : a ∈ Std.ExtTreeMap.ofList l compare := by
    simp [Std.ExtTreeMap.mem_iff_isSome_getElem?, hs]
  obtain ⟨b', hm⟩ : ∃ b', (a, b') ∈ l := by simpa [Std.ExtTreeMap.mem_ofList] using hm
  have hs' := Std.ExtTreeMap.getElem?_ofList_of_mem Std.ReflOrd.compare_self hd hm
  rw [hs] at hs'
  cases hs'
  exact hm

theorem ofList_toList (t : SortedMap α β) : Std.ExtTreeMap.ofList t.toList compare = t := by
  have hn : (t.toList.map (·.1)).Nodup := by
    rw [Std.ExtTreeMap.map_fst_toList_eq_keys]
    exact Std.ExtTreeMap.nodup_keys
  refine Std.ExtTreeMap.ext_getElem? fun a => Option.ext fun b => ?_
  rw [getElem?_ofList hn, Std.ExtTreeMap.mem_toList_iff_getElem?_eq_some]

-- The entries of one key.
theorem filter_toList [DecidableEq α] (t : SortedMap α β) (a : α) :
    t.toList.filter (·.1 = a) = (t[a]?.map (a, ·)).toList := by
  refine eq_of_ascending_map (f := Prod.fst) ?_ ?_ fun e => ?_
  · have keys : Ascending (t.toList.map Prod.fst) := by
      rw [Std.ExtTreeMap.map_fst_toList_eq_keys]
      exact Std.ExtTreeMap.ordered_keys
    exact keys.sublist (List.filter_sublist.map _)
  · cases t[a]? <;> simp [Ascending]
  · obtain ⟨a', b⟩ := e
    simp only [List.mem_filter, Std.ExtTreeMap.mem_toList_iff_getElem?_eq_some, decide_eq_true_eq,
      Option.mem_toList, Option.map_eq_some_iff, Prod.mk.injEq]
    grind

variable {t : SortedMap α β} {a : α} {b b' : β}

-- Putting one entry in, out or in another form.

theorem insert_insert : (t.insert a b).insert a b' = t.insert a b' := by
  refine Std.ExtTreeMap.ext_getElem? fun a' => ?_
  simp only [Std.ExtTreeMap.getElem?_insert]
  grind

theorem erase_insert : (t.insert a b).erase a = t.erase a := by
  refine Std.ExtTreeMap.ext_getElem? fun a' => ?_
  simp only [Std.ExtTreeMap.getElem?_erase, Std.ExtTreeMap.getElem?_insert]
  grind

theorem insert_erase (h : t[a]? = some b) : (t.erase a).insert a b = t := by
  refine Std.ExtTreeMap.ext_getElem? fun a' => ?_
  simp only [Std.ExtTreeMap.getElem?_insert, Std.ExtTreeMap.getElem?_erase]
  grind

theorem insert_eq_self (h : t[a]? = some b) : t.insert a b = t := by
  refine Std.ExtTreeMap.ext_getElem? fun a' => ?_
  simp only [Std.ExtTreeMap.getElem?_insert]
  grind

theorem erase_eq_self (h : t[a]? = none) : t.erase a = t := by
  refine Std.ExtTreeMap.ext_getElem? fun a' => ?_
  simp only [Std.ExtTreeMap.getElem?_erase]
  grind

theorem insertIfNew_eq_insert (h : t[a]? = none) : t.insertIfNew a b = t.insert a b := by
  have hn : a ∉ t := by rwa [Std.ExtTreeMap.mem_iff_isSome_getElem?, Option.not_isSome_iff_eq_none]
  refine Std.ExtTreeMap.ext_getElem? fun a' => ?_
  simp only [Std.ExtTreeMap.getElem?_insert, Std.ExtTreeMap.getElem?_insertIfNew, hn,
    not_false_eq_true, and_true]

theorem alter_eq_insert : (t.alter a fun _ => some b) = t.insert a b := by
  refine Std.ExtTreeMap.ext_getElem? fun a' => ?_
  simp only [Std.ExtTreeMap.getElem?_alter, Std.ExtTreeMap.getElem?_insert]

theorem alter_eq_erase : (t.alter a fun _ => none) = t.erase a := by
  refine Std.ExtTreeMap.ext_getElem? fun a' => ?_
  simp only [Std.ExtTreeMap.getElem?_alter, Std.ExtTreeMap.getElem?_erase]

theorem alter_map_eq_insert {f : β → β} (h : t[a]? = some b) :
    t.alter a (·.map f) = t.insert a (f b) := by
  refine Std.ExtTreeMap.ext_getElem? fun a' => ?_
  simp only [Std.ExtTreeMap.getElem?_alter, Std.ExtTreeMap.getElem?_insert]
  grind

-- The order of the entries aside, an entry is put in and taken out of their list.

theorem toList_insert_perm (h : t[a]? = none) : (t.insert a b).toList.Perm ((a, b) :: t.toList) := by
  have hn : (a, b) ∉ t.toList := by
    simp [Std.ExtTreeMap.mem_toList_iff_getElem?_eq_some, h]
  apply (List.perm_ext_iff_of_nodup (nodup_toList _) (List.nodup_cons.mpr ⟨hn, nodup_toList t⟩)).mpr
  intro (a', b')
  simp only [List.mem_cons, Prod.mk.injEq, Std.ExtTreeMap.mem_toList_iff_getElem?_eq_some,
    Std.ExtTreeMap.getElem?_insert]
  grind

theorem toList_perm_erase (h : t[a]? = some b) : t.toList.Perm ((a, b) :: (t.erase a).toList) := by
  have he : (t.erase a)[a]? = none := by simp
  have hp := toList_insert_perm (b := b) he
  rwa [insert_erase h] at hp

end SortedMap
end ClusterMetadata
