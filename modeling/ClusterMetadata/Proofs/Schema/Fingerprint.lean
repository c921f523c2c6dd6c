import ClusterMetadata.Proofs.Schema.Image
import ClusterMetadata.Proofs.Schema.Refinement

/-!
Stores that are made from definitions have one version exactly when the definitions are the same
(`images_eq_iff_definitions_eq`), whatever the instants, the order and the batches. The names of
definitions are as deep as their tables say and the text of an option map delimits itself, so here
what is digested can be taken apart cell by cell.
-/

namespace ClusterMetadata

-- Texts of free length can be digested with their length.
def Table.IsShort (t : Table) : Prop :=
  t.comment.utf8ByteSize < SchemaVersion.limit ∧
    ∀ c ∈ t.columns.values, c.validator.utf8ByteSize < SchemaVersion.limit

instance (t : Table) : Decidable t.IsShort :=
  inferInstanceAs (Decidable (_ ∧ _))

def Keyspace.IsShort (k : Keyspace) : Prop :=
  k.strategyClass.utf8ByteSize < SchemaVersion.limit ∧ ∀ t ∈ k.tables.values, t.IsShort

instance (k : Keyspace) : Decidable k.IsShort :=
  inferInstanceAs (Decidable (_ ∧ _))

namespace SchemaVersion

-- What the rows of definitions consist of.
structure IsRowCell (family : String) (c : CellName × Bytes) : Prop where
  depth   : c.1.length = Row.depth family + 1
  names   : ∀ component ∈ c.1, component.utf8ByteSize ≤ maxNameLength
  options : c.1 = [Row.strategyOptions] → ∃ o, c.2 = Utf8.encode (OptionMap.render o)
  value   : c.1 ≠ [Row.strategyOptions] → c.2.length < limit

theorem delimits_component :
    Delimits (fun c : String => c.utf8ByteSize ≤ maxNameLength) (sized ∘ Utf8.encode) := by
  intro a b r r' ha hb h
  rw [← Utf8.length_encode] at ha hb
  have hl : maxNameLength < limit := by decide
  have ⟨he, hr⟩ := delimits_sized (Nat.lt_of_le_of_lt ha hl) (Nat.lt_of_le_of_lt hb hl) h
  exact ⟨Utf8.encode_inj.mp he, hr⟩

-- Cells that are found one after the other.
def byCell : Framing (CellName × Bytes) where
  parts c := [(c.name, c.value)]
  write c := c.1.flatMap (sized ∘ Utf8.encode) ++ sized c.2
  admits  := IsRowCell
  parts_ne_nil _  := by simp
  flatMap_parts _ := by simp [cellImage]
  delimits table _ := by
    rintro ⟨n, v⟩ ⟨n', v'⟩ r r' h h' he
    simp only [List.append_assoc] at he
    obtain ⟨rfl, hv⟩ := delimits_component.flatMap_eq_of_length h.names h'.names
      (h.depth.trans h'.depth.symm) he
    by_cases hn : n = [Row.strategyOptions]
    case pos =>
      obtain ⟨o, rfl⟩ := h.options hn
      obtain ⟨o', rfl⟩ := h'.options hn
      obtain ⟨rfl, hr⟩ := OptionMap.delimits_render trivial trivial (sized_append_eq hv).right
      exact ⟨rfl, hr⟩
    case neg =>
      obtain ⟨rfl, hr⟩ := delimits_sized (h.value hn) (h'.value hn) hv
      exact ⟨rfl, hr⟩
  untagged table := by
    rintro ⟨n, v⟩ h r
    cases n
    case nil => cases h.depth
    case cons component n =>
      have hc := h.names component List.mem_cons_self
      have hl : maxNameLength < BigEndian.decode tag := by decide
      have hm : BigEndian.decode tag < limit := by decide
      rw [← Utf8.length_encode] at hc
      simp only [List.flatMap_cons, List.append_assoc]
      exact take_sized_append_ne (by omega) (by omega) _

theorem partsOf_byCell (s : Storage) : byCell.partsOf s = contents s := by
  funext table key
  exact List.flatMap_pure_eq_map _ _

end SchemaVersion

theorem Row.utf8ByteSize_le_of_mem_leaves {family leaf : String} (h : leaf ∈ leaves family) :
    leaf.utf8ByteSize ≤ maxNameLength := by
  have hl (family : String) : ∀ leaf ∈ leaves family, leaf.utf8ByteSize ≤ maxNameLength := by
    simp only [leaves]
    repeat' split
    all_goals decide
  exact hl family leaf h

-- An accepted definition, kept under the names inside.
structure Keyspace.IsProper (k : Keyspace) : Prop where
  valid : k.validate = .ok ()
  keyed : k.Keyed
  short : k.IsShort

namespace Table

variable {t : Table} {path : CellName} {cells : List (String × Bytes)}

theorem HasRow.utf8ByteSize_le (hv : t.validate = .ok ()) (hr : t.HasRow path cells) :
    ∀ component ∈ path, component.utf8ByteSize ≤ maxNameLength := by
  have ⟨_, hn, hc⟩ := validate_eq_ok_iff.mp hv
  have ht := (checkName_eq_ok_iff.mp hn).right.right
  cases hr
  case table => simpa using ht
  case column key c h =>
    have hc := (checkName_eq_ok_iff.mp (seq_eq_ok_iff.mp (hc key c h)).left).right.right
    simpa using ⟨ht, hc⟩

theorem HasRow.length_lt (hs : t.IsShort) (hr : t.HasRow path cells) :
    ∀ cell ∈ cells, cell.2.length < SchemaVersion.limit := by
  have small {n : Nat} (h : n ≤ 36) : n < SchemaVersion.limit := Nat.lt_of_le_of_lt h (by decide)
  cases hr
  case table =>
    simp only [Table.cells, List.forall_mem_cons, Utf8.length_encode, Uuid.utf8ByteSize_toText]
    exact ⟨small (by decide), small (by decide), hs.left, by simp⟩
  case column key c h =>
    have hk : c.kind.toText.utf8ByteSize ≤ 36 := by cases c.kind <;> decide
    simp only [Column.cells, List.forall_mem_cons, Utf8.length_encode]
    exact ⟨small (by decide), hs.right c (SortedMap.mem_values.mpr ⟨key, h⟩), small hk, by simp⟩

end Table

namespace Keyspace.IsProper

variable {k : Keyspace} {family leaf : String} {path : CellName} {cells : List (String × Bytes)}
  {v : Bytes}

theorem consistent (hk : k.IsProper) : k.Consistent :=
  k.consistent_of_validate hk.valid hk.keyed

theorem isRowCell (hk : k.IsProper) (hf : family ∈ Catalog.schema) (hr : k.HasRow path cells)
    (hl : path.length = Row.depth family) (hv : (leaf, v) ∈ cells) :
    SchemaVersion.IsRowCell family (path.child leaf, v) := by
  have hleaf : leaf ∈ Row.leaves family :=
    k.isWhole.leaves family hf path cells hr hl ▸ List.mem_map_of_mem hv
  have hn := Row.utf8ByteSize_le_of_mem_leaves hleaf
  cases hr
  case keyspace =>
    simp only [Keyspace.cells, List.mem_cons, List.not_mem_nil, or_false, Prod.mk.injEq] at hv
    constructor
    case depth => simp [CellName.child, ← hl]
    case names => simpa [CellName.child] using hn
    case options =>
      intro h
      obtain rfl : leaf = Row.strategyOptions := by simpa [CellName.child] using h
      have ho : v = Utf8.encode (OptionMap.render k.strategyOptions) := by
        simpa [Row.marker, Row.durableWrites, Row.strategyClass, Row.strategyOptions] using hv
      exact ⟨_, ho⟩
    case value =>
      intro h
      obtain ⟨rfl, rfl⟩ | ⟨rfl, rfl⟩ | ⟨rfl, rfl⟩ | ⟨rfl, rfl⟩ := hv
      · decide
      · cases k.durableWrites <;> decide
      · exact (Utf8.length_encode _).symm ▸ hk.short.left
      · exact absurd rfl h
  case table key t ht hr =>
    have ht' := ((validate_eq_ok_iff.mp hk.valid).right.right key t ht).right
    have hp := hr.utf8ByteSize_le ht'
    have hv := hr.length_lt (hk.short.right t (SortedMap.mem_values.mpr ⟨key, ht⟩)) _ hv
    constructor
    case depth   => simp [CellName.child, hl]
    case names   => simpa [CellName.child, or_imp, forall_and] using ⟨hp, hn⟩
    case options => intro h; cases hr <;> simp [CellName.child] at h
    case value   => exact fun _ => hv

end Keyspace.IsProper

namespace Definitions

-- Proper definitions under their names.
structure IsProper (ds : Definitions) : Prop where
  name_eq : ∀ (name : String) (k : Keyspace), ds[name]? = some k → k.name = name
  proper  : ∀ (name : String) (k : Keyspace), ds[name]? = some k → k.IsProper

theorem IsProper.consistent {ds : Definitions} (hd : ds.IsProper) : ds.Consistent :=
  fun name k hk => ⟨hd.name_eq name k hk, (hd.proper name k hk).consistent⟩

-- The rows of the keyspace whose name the key spells.
def rowsAt (ds : Definitions) (key : Bytes) : Rows := fun path cells =>
  ∃ name, key = Utf8.encode name ∧ ds.rows name path cells

theorem rowsAt_encode (ds : Definitions) (name : String) :
    ds.rowsAt (Utf8.encode name) = ds.rows name := by
  funext path cells
  simp [rowsAt, Utf8.encode_inj]

theorem Consistent.isShaped_rowsAt {ds : Definitions} (hd : ds.Consistent) (key : Bytes) :
    (ds.rowsAt key).IsShaped where
  unique := by
    rintro path cells cells' ⟨name, rfl, hr⟩ hr'
    rw [rowsAt_encode] at hr'
    exact (hd.isShaped name).unique path cells cells' hr hr'
  leaves := by
    rintro family hf path cells ⟨name, rfl, hr⟩
    exact (hd.isShaped name).leaves family hf path cells hr

end Definitions

-- The mutations create all of the definitions and do nothing else.
structure Creates (ms : List Mutation) (ds : Definitions) : Prop where
  only : ∀ m ∈ ms, ∃ (name : String) (k : Keyspace) (t : Int64),
    ds[name]? = some k ∧ m = k.creation t
  all  : ∀ (name : String) (k : Keyspace), ds[name]? = some k → ∃ t, k.creation t ∈ ms

namespace Creates

variable {ms : List Mutation} {ds : Definitions} {family : String} {key : Bytes} {n : CellName}
  {v : Bytes}

-- What is written under a key comes with the keyspace whose name it spells.
theorem exists_creation (hm : Creates ms ds) (hd : ds.Consistent) {mod : Modification}
    (h : mod ∈ batchOn ms ⟨Catalog.system, family, key⟩) :
    ∃ (k : Keyspace) (t : Int64), ds[k.name]? = some k ∧ key = Utf8.encode k.name ∧
      mod ∈ (k.creation t).on ⟨Catalog.system, family, Utf8.encode k.name⟩ := by
  have ⟨m, hms, hon⟩ := mem_batchOn.mp h
  obtain ⟨name, k, t, hk, rfl⟩ := hm.only m hms
  obtain rfl := (hd name k hk).left
  obtain rfl := k.rewrites_creation.key_eq hon
  exact ⟨k, t, hk, rfl, hon⟩

theorem not_deletes (hm : Creates ms ds) (hd : ds.Consistent) (hf : family ∈ Catalog.schema) :
    ∀ m ∈ batchOn ms ⟨Catalog.system, family, key⟩, ∀ path d, ¬m.Deletes path d := by
  intro mod hmod path d hdel
  have ⟨k, t, _, _, hon⟩ := hm.exists_creation hd hmod
  exact ((k.rewrites_creation.deletion family hf path).mp ⟨mod, hon, d, hdel⟩).left

theorem write_mem_iff (hm : Creates ms ds) (hd : ds.Consistent) (hf : family ∈ Catalog.schema) :
    (∃ t, .write n ⟨v, t⟩ ∈ batchOn ms ⟨Catalog.system, family, key⟩) ↔
      (ds.rowsAt key).Has family n v := by
  constructor
  case mp =>
    rintro ⟨t, hmod⟩
    obtain ⟨k, _, hk, rfl, hon⟩ := hm.exists_creation hd hmod
    rw [Definitions.rowsAt_encode, Definitions.rows_of_some hk]
    exact ((k.rewrites_creation.write family hf n _).mp hon).right
  case mpr =>
    rintro ⟨path, cells, leaf, ⟨name, rfl, k, hk, hr⟩, hl, hv, rfl⟩
    have ⟨t, hms⟩ := hm.all name k hk
    obtain rfl := (hd name k hk).left
    refine ⟨t, mem_batchOn.mpr ⟨_, hms, ?_⟩⟩
    exact (k.rewrites_creation.write family hf _ _).mpr ⟨rfl, path, cells, leaf, hr, hl, hv, rfl⟩

end Creates

namespace Storage

-- The schema tables hold the rows of the definitions and nothing else.
def Records (s : Storage) (ds : Definitions) : Prop :=
  ∀ key, s.Defines key (ds.rowsAt key)

namespace Records

open SchemaVersion

variable {s s' : Storage} {ds ds' : Definitions} {ms : List Mutation} {table : String} {key : Bytes}
  {c : CellName × Bytes}

theorem of_creates (hw : Writes ∅ (batchOn ms) s) (hm : Creates ms ds) (hd : ds.Consistent) :
    s.Records ds := by
  intro key family hf
  have hr := reflects_empty.writes hw ⟨Catalog.system, family, key⟩
  simp only [List.nil_append] at hr
  exact hr.holds (hm.not_deletes hd hf) (fun n v => hm.write_mem_iff hd hf)
    (hd.isShaped_rowsAt key) hf

theorem mem_contents_iff (hs : s.Records ds) (ht : table ∈ Catalog.schema) :
    c ∈ contents s table key ↔ (ds.rowsAt key).Has table c.1 c.2 := by
  rw [mem_contents]
  exact hs key table ht c.1 c.2

theorem represents (hs : s.Records ds) : s.Represents ds := by
  intro name
  rw [← Definitions.rowsAt_encode]
  exact hs (Utf8.encode name)

theorem congr (hs : s.Records ds)
    (h : ∀ table ∈ Catalog.schema, ∀ key, contents s' table key = contents s table key) :
    s'.Records ds := by
  intro key family hf n v
  rw [← mem_contents, h family hf, hs.mem_contents_iff hf]

theorem fits (hs : s.Records ds) (hd : ds.IsProper) : byCell.Fits s := by
  intro table ht key hk
  constructor
  case left =>
    have ⟨n, c, hc⟩ := Storage.mem_keys.mp hk
    obtain ⟨_, _, _, ⟨name, rfl, k, hk, -⟩, -⟩ := (hs key table ht n c.value).mp ⟨c.timestamp, hc⟩
    have hv := (Keyspace.validate_eq_ok_iff.mp (hd.proper name k hk).valid).left
    rw [hd.name_eq name k hk] at hv
    rw [Utf8.length_encode]
    exact Nat.lt_of_le_of_lt (checkName_eq_ok_iff.mp hv).right.right (by decide)
  case right =>
    rintro ⟨n, v⟩ hc
    rw [partsOf_byCell, hs.mem_contents_iff ht] at hc
    obtain ⟨path, cells, leaf, ⟨name, rfl, k, hk, hr⟩, hl, hv, rfl⟩ := hc
    exact (hd.proper name k hk).isRowCell ht hr hl hv

-- One image, one map of definitions.
theorem image_eq_iff (hs : s.Records ds) (hs' : s'.Records ds') (hd : ds.IsProper)
    (hd' : ds'.IsProper) : image s = image s' ↔ ds = ds' := by
  rw [Framing.image_eq_iff (hs.fits hd) (hs'.fits hd'), partsOf_byCell, partsOf_byCell]
  constructor
  case mp =>
    intro h
    exact hs.represents.unique (hs'.congr h).represents hd.consistent hd'.consistent
  case mpr =>
    rintro rfl table ht key
    refine contents_eq_of_mem_iff fun c => ?_
    rw [hs.mem_contents_iff ht, hs'.mem_contents_iff ht]

end Records
end Storage

namespace Replica

open SchemaVersion

theorem images_eq_iff_definitions_eq {ds ds' : Definitions} (hd : ds.IsProper) (hd' : ds'.IsProper)
    {batches batches' : List (List Mutation)} (hb : Creates batches.flatten ds)
    (hb' : Creates batches'.flatten ds') (rounds rounds' : Nat) :
    ∃ r r', (empty rounds).mergeAll batches = .ok r ∧ (empty rounds').mergeAll batches' = .ok r' ∧
      (image r.storage = image r'.storage ↔ ds = ds') := by
  have exists_records {ds : Definitions} {batches : List (List Mutation)} (hd : ds.IsProper)
      (hb : Creates batches.flatten ds) (rounds : Nat) :
      ∃ r, (empty rounds).mergeAll batches = .ok r ∧ r.storage.Records ds := by
    have hreg : ∀ m ∈ batches.flatten, Regular m.on := by
      intro m hm
      obtain ⟨_, k, t, -, rfl⟩ := hb.only m hm
      exact (SchemaChange.keyspaceCreation k t).regular_mutation
    have ⟨r, hr, _, hw⟩ := (sound_empty rounds).mergeAll hreg
    exact ⟨r, hr, .of_creates hw hb hd.consistent⟩
  have ⟨r, hr, hs⟩ := exists_records hd hb rounds
  have ⟨r', hr', hs'⟩ := exists_records hd' hb' rounds'
  exact ⟨r, r', hr, hr', hs.image_eq_iff hs' hd hd'⟩

-- A keyspace created twice, and one of the same name without its table.
theorem images_eq_iff_definitions_eq_of_table :
    let bare := Keyspace.simple "app" 1
    let users := Table.new "app" "users" ⟨List.replicate 16 0, rfl⟩
    let k := bare.withTable (users.withColumn ⟨"email", "UTF8Type", .regular⟩)
    let ds : Definitions := Std.ExtTreeMap.insert ∅ "app" k
    let ds' : Definitions := Std.ExtTreeMap.insert ∅ "app" bare
    let batches := [[k.creation 9], [], [k.creation 4]]
    let batches' := [[bare.creation 4]]
    ds.IsProper ∧ ds'.IsProper ∧ Creates batches.flatten ds ∧ Creates batches'.flatten ds' ∧
      ∃ r r', (empty 0).mergeAll batches = .ok r ∧ (empty 5).mergeAll batches' = .ok r' ∧
        (image r.storage = image r'.storage ↔ ds = ds') := by
  intro bare users k ds ds' batches batches'
  have happ : checkName "keyspace" "app" = .ok () := checkName_eq_ok_iff.mpr (by decide)
  have husers : checkName "table" "users" = .ok () := checkName_eq_ok_iff.mpr (by decide)
  have hemail : checkName "column" "email" = .ok () := checkName_eq_ok_iff.mpr (by decide)
  have hv' : bare.validate = .ok () := Keyspace.validate_new.mpr ⟨happ, by decide⟩
  have hv : k.validate = .ok () := Keyspace.validate_withTable hv'
    (Table.validate_withColumn (Table.validate_new.mpr ⟨happ, husers⟩)
      (seq_eq_ok_iff.mpr ⟨hemail, rfl⟩)) rfl
  have hp : k.IsProper :=
    ⟨hv, Keyspace.keyed_new.withTable (Table.keyed_new.withColumn _), by decide +kernel⟩
  have hp' : bare.IsProper := ⟨hv', Keyspace.keyed_new, by decide +kernel⟩
  have getElem?_insert {k k' : Keyspace} {name : String} :
      (Std.ExtTreeMap.insert (∅ : Definitions) "app" k)[name]? = some k' ↔
        "app" = name ∧ k = k' := by
    simp [Std.ExtTreeMap.getElem?_insert]
  have proper {k : Keyspace} (hn : k.name = "app") (hp : k.IsProper) :
      Definitions.IsProper (Std.ExtTreeMap.insert ∅ "app" k) := by
    constructor
    all_goals
      intro name k' hk
      obtain ⟨rfl, rfl⟩ := getElem?_insert.mp hk
      assumption
  have creates {k : Keyspace} {ms : List Mutation} (ts : List Int64)
      (hms : ms = ts.map k.creation) (ht : ts ≠ []) :
      Creates ms (Std.ExtTreeMap.insert ∅ "app" k) := by
    subst hms
    constructor
    case only =>
      intro m hm
      obtain ⟨t, -, rfl⟩ := List.mem_map.mp hm
      exact ⟨"app", k, t, getElem?_insert.mpr ⟨rfl, rfl⟩, rfl⟩
    case all =>
      intro name k' hk
      obtain ⟨rfl, rfl⟩ := getElem?_insert.mp hk
      have ⟨t, ht⟩ := List.exists_mem_of_ne_nil _ ht
      exact ⟨t, List.mem_map_of_mem ht⟩
  have hb : Creates batches.flatten ds := creates [9, 4] rfl (by simp)
  have hb' : Creates batches'.flatten ds' := creates [4] rfl (by simp)
  have hd := proper rfl hp
  have hd' := proper rfl hp'
  exact ⟨hd, hd', hb, hb', images_eq_iff_definitions_eq hd hd' hb hb' 0 5⟩

end Replica
end ClusterMetadata
