import ClusterMetadata.Audit.Registry
import ClusterMetadata.Proofs.Schema.Replica

/-!
A registry that keeps stored answers only. It cannot be told from one that has seen nothing
(`agrees_iff_query_eq`), and it stays so when it learns what is stored, forgets, or sees a merge.
-/

namespace ClusterMetadata.Registry

variable {r : Registry} {s s' : Storage} {target : String} {kind kind' : AuditKind} {tag : String}

-- What the registry keeps is what is stored.
def Agrees (r : Registry) (s : Storage) : Prop :=
  ∀ target kind tag, r.cached target kind.code = some tag → stored s target kind = some tag

theorem stored_eq_of_code_eq (h : kind.code = kind'.code) :
    stored s target kind = stored s target kind' := by
  simp only [stored, h]

theorem stored_congr (h : s.Agree s' (partition target)) :
    stored s target kind = stored s' target kind := by
  simp only [stored, h.read_eq]

theorem cached_empty {code : String} : (∅ : Registry).cached target code = none := by
  change ((∅ : SortedMap String (SortedMap String String))[target]?).bind (·[code]?) = none
  simp

theorem cached_learn {target' code code' : String} : (r.learn target code tag).cached target' code' =
    if target = target' ∧ code = code' then some tag else r.cached target' code' := by
  simp only [cached, learn, Std.ExtTreeMap.getElem?_alter, Option.bind_eq_bind,
    Std.LawfulEqOrd.compare_eq_iff_eq]
  by_cases ht : target = target'
  case neg => simp [ht]
  case pos =>
    cases hk : r.known[target']? <;>
      simp [ht, hk, Std.ExtTreeMap.getElem?_insert]

theorem cached_invalidate {target' code : String} : (r.invalidate target).cached target' code =
    if target = target' then none else r.cached target' code := by
  simp only [cached, invalidate, Std.ExtTreeMap.getElem?_erase, Option.bind_eq_bind,
    Std.LawfulEqOrd.compare_eq_iff_eq]
  split <;> rfl

theorem cached_invalidateAll {targets : List String} {code : String} :
    (targets.foldl invalidate r).cached target code =
      if target ∈ targets then none else r.cached target code := by
  induction targets generalizing r
  case nil => simp
  case cons t targets hi =>
    simp only [List.foldl_cons, hi, cached_invalidate, List.mem_cons]
    grind

theorem agrees_empty : Agrees ∅ s := by
  intro target kind tag h
  rw [cached_empty] at h
  cases h

theorem query_fst : (r.query s target kind).1 =
    (r.cached target kind.code).or (stored s target kind) := by
  rw [query]
  cases r.cached target kind.code
  case some tag => rfl
  case none     => cases stored s target kind <;> rfl

-- To ask the registry changes none of its answers.
theorem query_query_fst {target' : String} :
    ((r.query s target kind).2.query s target' kind').1 = (r.query s target' kind').1 := by
  rw [query_fst, query_fst, query]
  cases hc : r.cached target kind.code
  case some tag => rfl
  case none =>
    cases hs : stored s target kind
    case none => rfl
    case some tag =>
      dsimp only
      rw [cached_learn]
      split
      case isFalse   => rfl
      case isTrue he =>
        obtain ⟨rfl, hk⟩ := he
        rw [← hk, hc, ← stored_eq_of_code_eq hk, hs]
        rfl

theorem Agrees.query_fst (h : r.Agrees s) : (r.query s target kind).1 = stored s target kind := by
  rw [Registry.query_fst]
  cases hc : r.cached target kind.code
  case some tag => exact (h target kind tag hc).symm
  case none     => rfl

-- A registry that has seen nothing answers what is stored. Another one answers the same unless it
-- keeps what is not stored any more.
theorem query_eq_iff : (r.query s target kind).1 = ((∅ : Registry).query s target kind).1 ↔
    ∀ tag, r.cached target kind.code = some tag → stored s target kind = some tag := by
  rw [agrees_empty.query_fst, query]
  cases hc : r.cached target kind.code
  case some tag => simp [eq_comm]
  case none     => cases hs : stored s target kind <;> simp

theorem agrees_iff_query_eq : r.Agrees s ↔
    ∀ target kind, (r.query s target kind).1 = ((∅ : Registry).query s target kind).1 := by
  simp only [Agrees, query_eq_iff]

theorem Agrees.learn (h : r.Agrees s) (ht : stored s target kind = some tag) :
    (r.learn target kind.code tag).Agrees s := by
  intro target' kind' tag' hc
  rw [cached_learn] at hc
  split at hc
  case isTrue he =>
    cases hc
    rw [← he.left, ← stored_eq_of_code_eq he.right, ht]
  case isFalse => exact h target' kind' tag' hc

theorem Agrees.query (h : r.Agrees s) : (r.query s target kind).2.Agrees s := by
  simp only [Registry.query]
  cases hc : r.cached target kind.code
  case some tag => exact h
  case none =>
    cases hs : stored s target kind
    case none     => exact h
    case some tag => exact h.learn hs

theorem Agrees.congr (h : r.Agrees s) (ha : ∀ target, s.Agree s' (partition target)) :
    r.Agrees s' :=
  fun target kind tag hc => stored_congr (ha target) ▸ h target kind tag hc

theorem stored_eq_of_not_mem_touched {batch : List Mutation} (hw : s.Writes (batchOn batch) s')
    (ht : target ∉ Schema.touchedTargets batch) : stored s target kind = stored s' target kind := by
  have hb : batchOn batch (partition target) = [] := by
    by_contra hb
    refine ht (Utf8.lossy_encode target ▸ ?_)
    exact Schema.keyText_mem_touched (by simp) hb
  apply stored_congr
  rw [Storage.Agree, hw.partition, hb]
  rfl

-- A merge makes the registry forget all targets that it writes to.
theorem Agrees.merge {batch : List Mutation} (h : r.Agrees s) (hw : s.Writes (batchOn batch) s') :
    ((Schema.touchedTargets batch).foldl invalidate r).Agrees s' := by
  intro target kind tag hc
  rw [cached_invalidateAll] at hc
  split at hc
  case isTrue     => cases hc
  case isFalse ht => exact stored_eq_of_not_mem_touched hw ht ▸ h target kind tag hc

theorem Agrees.invalidateAll (h : r.Agrees s) (targets : List String) :
    (targets.foldl invalidate r).Agrees s := by
  intro target kind tag hc
  rw [cached_invalidateAll] at hc
  split at hc
  case isTrue  => cases hc
  case isFalse => exact h target kind tag hc

end ClusterMetadata.Registry
