import ClusterMetadata.Proofs.Schema.Stored

/-!
When a keyspace can be read, and what two readings of one storage have in common. A reading succeeds
exactly when what it looks at can be read (`keyspace_eq_ok_iff`) and fails for nothing but a stored
value. Two readings are alike: they differ at most in the ids of tables that have none stored
(`Alike.of_readings`).
-/

namespace ClusterMetadata

-- The keyspace whose stored value it is.
def Malformed.keyspace : Malformed → String
  | .strategyOptions keyspace => keyspace
  | .tableId keyspace _       => keyspace
  | .columnKind keyspace _ _  => keyspace

namespace Stored

variable {s s' : Storage} {name keyspace : String} {fresh fresh' : Nat → Uuid} {cs : List Cell}
  {e : StorageError}

-- What is looked at for the keyspace can be read. The rows of the tables are not looked at unless
-- the keyspace exists.
structure Loads (s : Storage) (keyspace : String) : Prop where
  options : ∀ c ∈ cells s Catalog.keyspaces keyspace, [Row.strategyOptions] <+: c.name →
    (readOptions? c.value).isSome
  ids : present (cells s Catalog.keyspaces keyspace) [] = true →
    ∀ c ∈ cells s Catalog.tables keyspace, checkId keyspace c = .ok ()
  kinds : present (cells s Catalog.keyspaces keyspace) [] = true →
    ∀ c ∈ cells s Catalog.columns keyspace, checkKind keyspace c = .ok ()

theorem Readable.loads (h : Readable s name) : Loads s name :=
  ⟨h.options, fun _ => h.ids, fun _ => h.kinds⟩

theorem readable_of_options_eq_ok {o : SortedMap String String} (h : options keyspace cs = .ok o) :
    ∀ c ∈ cs, [Row.strategyOptions] <+: c.name → (readOptions? c.value).isSome := by
  intro c hc hp
  have ⟨_, hm, _⟩ := bind_eq_ok_iff.mp h
  have ⟨o, ho⟩ := exists_of_mapM_eq_ok hm c (mem_under.mpr ⟨hc, hp⟩)
  cases hr : readOptions? c.value
  case none   => rw [hr] at ho; cases ho
  case some o => rfl

theorem checks_of_tables_eq_ok {t : SortedMap String Table} (h : tables s keyspace fresh = .ok t) :
    (∀ c ∈ cells s Catalog.tables keyspace, checkId keyspace c = .ok ()) ∧
      ∀ c ∈ cells s Catalog.columns keyspace, checkKind keyspace c = .ok () := by
  have ⟨_, hi, h⟩ := bind_eq_ok_iff.mp h
  have ⟨_, hk, _⟩ := bind_eq_ok_iff.mp h
  exact ⟨forM_eq_ok_iff.mp hi, forM_eq_ok_iff.mp hk⟩

theorem loads_of_keyspace_eq_ok {k : Option Keyspace} (h : Stored.keyspace s name fresh = .ok k) :
    Loads s name := by
  have ⟨o, ho, h⟩ := bind_eq_ok_iff.mp h
  have checks (hp : present (cells s Catalog.keyspaces name) [] = true) :
      (∀ c ∈ cells s Catalog.tables name, checkId name c = .ok ()) ∧
        ∀ c ∈ cells s Catalog.columns name, checkKind name c = .ok () := by
    simp only [hp, Bool.not_true, Bool.false_eq_true, if_false] at h
    have ⟨_, ht, _⟩ := bind_eq_ok_iff.mp h
    exact checks_of_tables_eq_ok ht
  exact ⟨readable_of_options_eq_ok ho, fun hp => (checks hp).left, fun hp => (checks hp).right⟩

theorem Loads.keyspace_eq (h : Loads s name) (fresh : Nat → Uuid) :
    Stored.keyspace s name fresh = .ok (reading s name fresh) := by
  cases hp : present (cells s Catalog.keyspaces name) []
  case false =>
    simp only [Stored.keyspace, options_eq_ok h.options, reading, hp]
    rfl
  case true => exact keyspace_of_readable ⟨h.options, h.ids hp, h.kinds hp⟩ fresh

theorem keyspace_eq_ok_iff {k : Option Keyspace} :
    Stored.keyspace s name fresh = .ok k ↔ Loads s name ∧ reading s name fresh = k := by
  constructor
  case mp =>
    intro h
    have hl := loads_of_keyspace_eq_ok h
    exact ⟨hl, Except.ok.inj ((hl.keyspace_eq fresh).symm.trans h)⟩
  case mpr => exact fun ⟨hl, hk⟩ => hk ▸ hl.keyspace_eq fresh

theorem Loads.reading_eq_of_identified (h : Loads s name) (hi : Identified s name) :
    reading s name fresh = reading s name fresh' := by
  cases hp : present (cells s Catalog.keyspaces name) []
  case false => simp only [reading, hp, Bool.false_eq_true, if_false]
  case true =>
    have ht : tableMap s name fresh = tableMap s name fresh' := by
      refine congrArg (Std.ExtTreeMap.ofList · compare) (List.map_congr_left ?_)
      rintro ⟨t, i⟩ hm
      have hr := mem_rowNames.mp (List.fst_mem_of_mem_zipIdx hm)
      exact congrArg (t, ·) (table_eq_of_isSome (h.ids hp) (hi t hr))
    simp only [reading, ht]

theorem loads_iff (fresh : Nat → Uuid) : Loads s name ↔ ∃ k, Stored.keyspace s name fresh = .ok k :=
  ⟨fun h => ⟨_, h.keyspace_eq fresh⟩, fun ⟨_, h⟩ => loads_of_keyspace_eq_ok h⟩

theorem exists_malformed_of_checkId_eq_error {c : Cell} (h : checkId keyspace c = .error e) :
    ∃ family value, e = .malformed family value ∧ value.keyspace = keyspace := by
  simp only [checkId] at h
  repeat' split at h
  all_goals cases h
  exact ⟨_, _, rfl, rfl⟩

theorem exists_malformed_of_checkKind_eq_error {c : Cell} (h : checkKind keyspace c = .error e) :
    ∃ family value, e = .malformed family value ∧ value.keyspace = keyspace := by
  simp only [checkKind] at h
  repeat' split at h
  all_goals cases h
  exact ⟨_, _, rfl, rfl⟩

theorem exists_malformed_of_options_eq_error (h : options keyspace cs = .error e) :
    ∃ family value, e = .malformed family value ∧ value.keyspace = keyspace := by
  rcases bind_eq_error_iff.mp h with h | ⟨_, -, h⟩
  · have ⟨c, _, h⟩ := exists_of_mapM_eq_error h
    cases hr : readOptions? c.value
    case none   => rw [hr] at h; cases h; exact ⟨_, _, rfl, rfl⟩
    case some o => rw [hr] at h; cases h
  · cases h

theorem exists_malformed_of_tables_eq_error (h : tables s keyspace fresh = .error e) :
    ∃ family value, e = .malformed family value ∧ value.keyspace = keyspace := by
  rcases bind_eq_error_iff.mp h with h | ⟨_, -, h⟩
  · have ⟨_, _, h⟩ := exists_of_forM_eq_error h
    exact exists_malformed_of_checkId_eq_error h
  · rcases bind_eq_error_iff.mp h with h | ⟨_, -, h⟩
    · have ⟨_, _, h⟩ := exists_of_forM_eq_error h
      exact exists_malformed_of_checkKind_eq_error h
    · cases h

-- Reading fails for nothing but a stored value of the keyspace.
theorem exists_malformed_of_keyspace_eq_error (h : Stored.keyspace s name fresh = .error e) :
    ∃ family value, e = .malformed family value ∧ value.keyspace = name := by
  rcases bind_eq_error_iff.mp h with h | ⟨o, -, h⟩
  · exact exists_malformed_of_options_eq_error h
  · split at h
    case isTrue  => cases h
    case isFalse =>
      rcases bind_eq_error_iff.mp h with h | ⟨_, -, h⟩
      · exact exists_malformed_of_tables_eq_error h
      · cases h

theorem loads_and_reading_eq_none (h : Utf8.encode name ∉ s.keys Catalog.system Catalog.keyspaces)
    (fresh : Nat → Uuid) : Loads s name ∧ reading s name fresh = none := by
  have hc : cells s Catalog.keyspaces name = [] := by
    refine List.eq_nil_iff_forall_not_mem.mpr fun c hm => h ?_
    exact Storage.mem_keys.mpr ⟨c.name, c.toStamped, mem_cells.mp hm⟩
  have hp : present (cells s Catalog.keyspaces name) [] = false := by
    simp [hc, present, under]
  refine ⟨⟨by simp [hc], by simp [hp], by simp [hp]⟩, ?_⟩
  simp [reading, hp]

-- The rows of the table hold an id.
def HasId (s : Storage) (keyspace table : String) : Prop :=
  (value? (cells s Catalog.tables keyspace) [table, Row.id]).isSome

-- Tables that differ at most in their ids, and not in those if an id is stored.
structure TableAlike (s : Storage) (t t' : Table) : Prop where
  keyspace : t.keyspace = t'.keyspace
  name     : t.name = t'.name
  id       : HasId s t.keyspace t.name → t.id = t'.id
  comment  : t.comment = t'.comment
  columns  : t.columns = t'.columns

-- Keyspaces that differ at most in the ids of tables that have none stored.
structure KeyspaceAlike (s : Storage) (k k' : Keyspace) : Prop where
  name            : k.name = k'.name
  strategyClass   : k.strategyClass = k'.strategyClass
  strategyOptions : k.strategyOptions = k'.strategyOptions
  durableWrites   : k.durableWrites = k'.durableWrites
  tables          : ∀ t : String, Option.Rel (TableAlike s) k.tables[t]? k'.tables[t]?

-- The same keyspaces, up to the ids of tables that have none stored.
def Alike (s : Storage) (ks ks' : SortedMap String Keyspace) : Prop :=
  ∀ name : String, Option.Rel (KeyspaceAlike s) ks[name]? ks'[name]?

theorem rel_of_isSome_iff {α : Type} {R : α → α → Prop} {x y : Option α}
    (hs : x.isSome ↔ y.isSome) (h : ∀ a b, x = some a → y = some b → R a b) : Option.Rel R x y := by
  cases x <;> cases y
  case none.none => exact .none
  case some.some => exact .some (h _ _ rfl rfl)
  all_goals simp at hs

theorem table_alike {t : String} {u u' : Uuid}
    (h : ∀ c ∈ cells s Catalog.tables keyspace, checkId keyspace c = .ok ()) :
    TableAlike s (table (cells s Catalog.tables keyspace) cs keyspace t u)
      (table (cells s Catalog.tables keyspace) cs keyspace t u') where
  keyspace := rfl
  name     := rfl
  comment  := rfl
  columns  := rfl
  id hi    := congrArg Table.id (table_eq_of_isSome h hi)

theorem tableMap_alike (h : ∀ c ∈ cells s Catalog.tables keyspace, checkId keyspace c = .ok ())
    (t : String) : Option.Rel (TableAlike s) (tableMap s keyspace fresh)[t]?
      (tableMap s keyspace fresh')[t]? := by
  refine rel_of_isSome_iff ?_ fun d d' hd hd' => ?_
  · simp only [Option.isSome_iff_exists, exists_getElem?_tableMap]
  · obtain ⟨_, -, rfl⟩ := getElem?_tableMap.mp hd
    obtain ⟨_, -, rfl⟩ := getElem?_tableMap.mp hd'
    exact table_alike h

theorem Loads.reading_alike (h : Loads s name) :
    Option.Rel (KeyspaceAlike s) (reading s name fresh) (reading s name fresh') := by
  cases hp : present (cells s Catalog.keyspaces name) []
  case false =>
    simp only [reading, hp, Bool.false_eq_true, if_false]
    exact .none
  case true =>
    simp only [reading, hp, if_true]
    exact .some ⟨rfl, rfl, rfl, rfl, tableMap_alike (h.ids hp)⟩

theorem Alike.of_readings {ks ks' : SortedMap String Keyspace}
    (h : ∀ name : String, ∃ fresh, Stored.keyspace s name fresh = .ok ks[name]?)
    (h' : ∀ name : String, ∃ fresh, Stored.keyspace s name fresh = .ok ks'[name]?) :
    Alike s ks ks' := by
  intro name
  have ⟨_, hk⟩ := h name
  have ⟨_, hk'⟩ := h' name
  have ⟨hl, hr⟩ := keyspace_eq_ok_iff.mp hk
  have ⟨_, hr'⟩ := keyspace_eq_ok_iff.mp hk'
  exact hr ▸ hr' ▸ hl.reading_alike

end Stored

end ClusterMetadata
