import ClusterMetadata.Audit.Rows
import ClusterMetadata.Proofs.Schema.Stored

/-!
The audit entries of a row mutation and their grouping by kind. A table with modifications gets the
one entry that they call for. A table without any gets the entry of a deletion, so the entries are
those of the tables with modifications just when there is no other table
(`summarized_iff_no_family_empty`).
-/

namespace ClusterMetadata

variable {mods : List Modification}

theorem Modification.all_isDeletion_iff :
    mods.all (·.isDeletion) = true ↔ ∀ name c, .write name c ∉ mods := by
  rw [List.all_eq_true]
  constructor
  case mp =>
    intro h name c hm
    cases h _ hm
  case mpr =>
    intro h mod hm
    cases mod
    case write name c   => exact absurd hm (h name c)
    case tombstone      => rfl
    case rangeTombstone => rfl

theorem Modification.exists_isDeletion (hm : mods ≠ [])
    (h : ∀ name c, .write name c ∉ mods) : ∃ mod ∈ mods, mod.isDeletion = true := by
  have ⟨mod, hmod⟩ := List.exists_mem_of_ne_nil mods hm
  exact ⟨mod, hmod, List.all_eq_true.mp (all_isDeletion_iff.mpr h) mod hmod⟩

namespace RowAudit

variable {m : Mutation} {family : String × List Modification}

theorem any_insertsRow_iff : mods.any insertsRow = true ↔
    ∃ name c, .write name c ∈ mods ∧ name.leaf = some "" := by
  rw [List.any_eq_true]
  constructor
  case mp =>
    rintro ⟨mod, hm, hi⟩
    cases mod
    case write name c   => exact ⟨name, c, hm, beq_iff_eq.mp hi⟩
    case tombstone      => cases hi
    case rangeTombstone => cases hi
  case mpr =>
    rintro ⟨name, c, hm, hl⟩
    exact ⟨_, hm, beq_iff_eq.mpr hl⟩

theorem kindOf_eq_rowInserted_iff : kindOf mods = .rowInserted ↔
    ∃ name c, .write name c ∈ mods ∧ name.leaf = some "" := by
  rw [← any_insertsRow_iff, kindOf]
  split
  case isTrue h  => simp [h]
  case isFalse h => split <;> simp [h]

theorem kindOf_eq_rowDeleted_iff :
    kindOf mods = .rowDeleted ↔ ∀ name c, .write name c ∉ mods := by
  rw [← Modification.all_isDeletion_iff, kindOf]
  split
  case isTrue h =>
    have ⟨name, c, hm, _⟩ := any_insertsRow_iff.mp h
    have hn : mods.all (·.isDeletion) ≠ true := fun ha =>
      Modification.all_isDeletion_iff.mp ha name c hm
    simp [hn]
  case isFalse => split <;> simp_all

theorem kindOf_eq_rowUpdated_iff : kindOf mods = .rowUpdated ↔
    (∃ name c, .write name c ∈ mods) ∧ ∀ name c, .write name c ∈ mods → name.leaf ≠ some "" := by
  have hk : kindOf mods = .rowUpdated ↔
      kindOf mods ≠ .rowInserted ∧ kindOf mods ≠ .rowDeleted := by
    rw [kindOf]
    split
    case isTrue  => simp
    case isFalse => split <;> simp
  rw [hk, Ne, Ne, kindOf_eq_rowInserted_iff, kindOf_eq_rowDeleted_iff]
  simp only [not_exists, not_and, not_forall, not_not]
  exact and_comm

-- The entry that a table with modifications calls for.
structure Summarizes (m : Mutation) (family : String × List Modification) (row : RowAudit) :
    Prop where
  target   : row.target = m.keyspace ++ "." ++ family.1 ++ "." ++ m.keyText
  inserted : row.kind = .rowInserted ↔ ∃ name c, .write name c ∈ family.2 ∧ name.leaf = some ""
  deleted  : row.kind = .rowDeleted ↔
    (∃ mod ∈ family.2, mod.isDeletion = true) ∧ ∀ name c, .write name c ∉ family.2
  updated  : row.kind = .rowUpdated ↔
    (∃ name c, .write name c ∈ family.2) ∧
      ∀ name c, .write name c ∈ family.2 → name.leaf ≠ some ""

-- A table without modifications passes for one with deletions only.
structure PassesForDeleted (m : Mutation) (family : String × List Modification) (row : RowAudit) :
    Prop where
  nothing : family.2 = []
  target  : row.target = m.keyspace ++ "." ++ family.1 ++ "." ++ m.keyText
  value   : row.value = ""
  kind    : row.kind = .rowDeleted

theorem summarizes_of_ne_nil {row : RowAudit} (hf : family.2 ≠ [])
    (ht : row.target = m.keyspace ++ "." ++ family.1 ++ "." ++ m.keyText)
    (hk : row.kind = kindOf family.2) : Summarizes m family row := by
  constructor
  case target   => exact ht
  case inserted => rw [hk, kindOf_eq_rowInserted_iff]
  case updated  => rw [hk, kindOf_eq_rowUpdated_iff]
  case deleted =>
    rw [hk, kindOf_eq_rowDeleted_iff]
    exact ⟨fun h => ⟨Modification.exists_isDeletion hf h, h⟩, And.right⟩

theorem forall₂_ofMutation_iff {R : String × List Modification → RowAudit → Prop} :
    List.Forall₂ R m.families.toList (ofMutation m) ↔ ∀ family ∈ m.families.toList, R family {
      target := joinTarget [m.keyspace, family.1, m.keyText]
      value := String.join (family.2.filterMap describe)
      kind := kindOf family.2 } := by
  rw [ofMutation, List.forall₂_map_right_iff, List.forall₂_same]

theorem summarizes_or_passesForDeleted : List.Forall₂
    (fun family row => Summarizes m family row ∨ PassesForDeleted m family row)
    m.families.toList (ofMutation m) := by
  rw [forall₂_ofMutation_iff]
  intro family _
  by_cases hf : family.2 = []
  case pos => exact .inr ⟨hf, rfl, by simp [hf], by simp [hf, kindOf]⟩
  case neg => exact .inl (summarizes_of_ne_nil hf rfl rfl)

-- The groups share the entries out: one group for each kind that there is.
structure SharesOut (rows : List RowAudit) (groups : List (AuditKind × List RowAudit)) : Prop where
  once    : (groups.map Prod.fst).Nodup
  inOrder : ∀ g ∈ groups, g.2 = rows.filter (·.kind = g.1)
  held    : ∀ g ∈ groups, g.2 ≠ []
  whole   : (groups.flatMap Prod.snd).Perm rows

theorem flatMap_filter_perm (rows : List RowAudit) {kinds : List AuditKind} (h : kinds.Nodup) :
    (kinds.flatMap fun kind => rows.filter (·.kind = kind)).Perm
      (rows.filter (·.kind ∈ kinds)) := by
  induction kinds
  case nil => simp
  case cons kind kinds hi =>
    have ⟨hk, hn⟩ := List.nodup_cons.mp h
    -- The entries of the first kind, and those of the others.
    have hl : rows.filter (·.kind = kind) =
        (rows.filter (·.kind ∈ kind :: kinds)).filter (·.kind = kind) := by
      rw [List.filter_filter]
      exact List.filter_congr fun row _ => by simp +contextual
    have hr : rows.filter (·.kind ∈ kinds) =
        (rows.filter (·.kind ∈ kind :: kinds)).filter (fun row => !decide (row.kind = kind)) := by
      rw [List.filter_filter]
      refine List.filter_congr fun row _ => ?_
      by_cases he : row.kind = kind
      case pos => simp [he, hk]
      case neg => simp [he]
    rw [List.flatMap_cons]
    refine ((hi hn).append_left _).trans ?_
    rw [hr, hl]
    exact List.filter_append_perm _ _

theorem sharesOut_byKind (rows : List RowAudit) : SharesOut rows (byKind rows) := by
  have hn := nodup_eraseDups (rows.map (·.kind))
  have hm : ∀ row ∈ rows, row.kind ∈ (rows.map (·.kind)).eraseDups := fun row hr =>
    List.mem_eraseDups.mpr (List.mem_map_of_mem hr)
  constructor
  case once => simpa [byKind, Function.comp_def] using hn
  case inOrder => simp [byKind]
  case held =>
    simp only [byKind, List.forall_mem_map]
    intro kind hk
    obtain ⟨row, hr, rfl⟩ := List.mem_map.mp (List.mem_eraseDups.mp hk)
    exact List.ne_nil_of_mem (List.mem_filter.mpr ⟨hr, by simp⟩)
  case whole =>
    rw [byKind, List.flatMap_map]
    refine (flatMap_filter_perm rows hn).trans ?_
    rw [List.filter_eq_self.mpr fun row hr => by simpa using hm row hr]

theorem summarized_iff_no_family_empty (m : Mutation) :
    let families := m.families.toList
    let rows := ofMutation m
    List.Forall₂ (fun family row => Summarizes m family row ∨ PassesForDeleted m family row)
      families rows ∧
    (List.Forall₂ (Summarizes m) (families.filter (·.2 ≠ [])) rows ↔
      ∀ family ∈ families, family.2 ≠ []) ∧
    SharesOut rows (byKind rows) := by
  intro families rows
  have hs : List.Forall₂ _ families rows := summarizes_or_passesForDeleted
  refine ⟨hs, ⟨fun hc => ?_, fun hn => ?_⟩, sharesOut_byKind rows⟩
  case refine_1 =>
    have hl := hc.length_eq.trans hs.length_eq.symm
    simpa using List.length_filter_eq_length_iff.mp hl
  case refine_2 =>
    rw [List.filter_eq_self.mpr fun family hf => by simpa using hn family hf]
    rw [forall₂_ofMutation_iff]
    exact fun family hf => summarizes_of_ne_nil (hn family hf) rfl rfl

-- What a table without modifications is reported as: the deletion of a row.
theorem rowDeleted_of_no_modification :
    let m := Mutation.ofFamilies "app" (Utf8.encode "42") [("users", [])]
    m.families.toList = [("users", [])] ∧
      ofMutation m = [⟨"app.users.42", "", .rowDeleted⟩] ∧
      ¬List.Forall₂ (Summarizes m) (m.families.toList.filter (·.2 ≠ [])) (ofMutation m) := by
  intro m
  have hf : m.families.toList = [("users", [])] := by decide +kernel
  have hr : ofMutation m = [⟨"app.users.42", "", .rowDeleted⟩] := by decide +kernel
  refine ⟨hf, hr, fun hs => ?_⟩
  rw [hf, hr] at hs
  cases hs

end RowAudit
end ClusterMetadata
