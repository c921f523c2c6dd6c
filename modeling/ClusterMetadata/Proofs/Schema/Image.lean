import ClusterMetadata.Proofs.Schema.Replica
import ClusterMetadata.Proofs.Text.BigEndian
import ClusterMetadata.Proofs.Text.Delimits

/-!
Taking what is digested apart again. A table's name begins a partition, and a length begins all that
follows in it, so the partitions are found as long as no length reads as the start of such a name
(`Framing.image_eq_iff`). A cell has no length of its own: two storages have one image exactly when
their partitions hold the same fields, and then the same cells if the names are as deep
(`image_separates`).
-/

namespace ClusterMetadata.SchemaVersion

-- Below this a length is written in full.
def limit : Nat := 256 ^ 4

-- How the names of the schema tables begin.
def tag : Bytes := Utf8.encode "sche"

theorem take_encode_append {table : String} (ht : table ∈ Catalog.schema) (r : Bytes) :
    (Utf8.encode table ++ r).take 4 = tag := by
  simp only [Catalog.schema, List.mem_cons, List.not_mem_nil, or_false] at ht
  obtain rfl | rfl | rfl := ht <;> rfl

theorem delimits_table : Delimits (· ∈ Catalog.schema) Utf8.encode := by
  intro table table' r r' ht ht' h
  -- the names differ within the length of the shortest
  have take_eq {t : String} (ht : t ∈ Catalog.schema) (r : Bytes) :
      (Utf8.encode t ++ r).take 14 = (Utf8.encode t).take 14 := by
    simp only [Catalog.schema, List.mem_cons, List.not_mem_nil, or_false] at ht
    obtain rfl | rfl | rfl := ht <;> rfl
  have hi : ∀ t ∈ Catalog.schema, ∀ t' ∈ Catalog.schema,
      (Utf8.encode t).take 14 = (Utf8.encode t').take 14 → t = t' := by
    decide
  have he := congrArg (List.take 14) h
  rw [take_eq ht, take_eq ht'] at he
  obtain rfl := hi table ht table' ht' he
  exact ⟨rfl, List.append_cancel_left h⟩

theorem sized_append_eq {b b' r r' : Bytes} (h : sized b ++ r = sized b' ++ r') :
    b.length % limit = b'.length % limit ∧ b ++ r = b' ++ r' := by
  simp only [sized, List.append_assoc] at h
  have ⟨hl, hr⟩ := List.append_inj h (by simp)
  exact ⟨BigEndian.mod_eq_of_encode_eq hl, hr⟩

theorem delimits_sized : Delimits (fun b => b.length < limit) sized := by
  intro b b' r r' hb hb' h
  have ⟨hl, h⟩ := sized_append_eq h
  rw [Nat.mod_eq_of_lt hb, Nat.mod_eq_of_lt hb'] at hl
  exact List.append_inj h hl

theorem take_sized_append_ne {b : Bytes} (hl : b.length < limit)
    (ht : b.length ≠ BigEndian.decode tag) (r : Bytes) : (sized b ++ r).take 4 ≠ tag := by
  intro h
  rw [sized, List.append_assoc, List.take_left' (BigEndian.length_encode ..)] at h
  refine ht ?_
  rw [← h, BigEndian.decode_encode]
  exact (Nat.mod_eq_of_lt hl).symm

-- A partition of a table, with its cells in parts of some kind.
@[ext]
structure Block (ι : Type) where
  table : String
  key   : Bytes
  parts : List ι

def Block.image {ι : Type} (write : ι → Bytes) (b : Block ι) : Bytes :=
  Utf8.encode b.table ++ sized b.key ++ b.parts.flatMap write

structure Block.IsAdmitted {ι : Type} (admits : String → ι → Prop) (b : Block ι) : Prop where
  table : b.table ∈ Catalog.schema
  key   : b.key.length < limit
  parts : ∀ i ∈ b.parts, admits b.table i

-- A way to read the image of a cell: its parts, and which of them can be told from what follows and
-- from the start of a partition.
structure Framing (ι : Type) where
  parts    : Cell → List ι
  write    : ι → Bytes
  admits   : String → ι → Prop
  parts_ne_nil  : ∀ c, parts c ≠ []
  flatMap_parts : ∀ c, (parts c).flatMap write = cellImage c
  delimits : ∀ table ∈ Catalog.schema, Delimits (admits table) write
  untagged : ∀ table i, admits table i → ∀ r, (write i ++ r).take 4 ≠ tag

namespace Framing

variable {ι : Type} {f : Framing ι} {bs bs' : List (Block ι)} {s s' : Storage}
  {table : String} {key : Bytes}

-- What begins a partition, or ends the image, is no part of the partition before.
theorem stops (hb : ∀ b ∈ bs, b.IsAdmitted f.admits) :
    Stops (f.admits table) f.write (bs.flatMap (Block.image f.write)) := by
  intro i hi r h
  cases bs
  case nil =>
    have hn : f.write i = [] := by simp_all
    exact f.untagged table i hi tag (by rw [hn]; rfl)
  case cons b bs =>
    refine f.untagged table i hi r ?_
    rw [← h, List.flatMap_cons, Block.image]
    simp only [List.append_assoc]
    exact take_encode_append (hb b List.mem_cons_self).table _

theorem image_ne_nil {b : Block ι} (hb : b.IsAdmitted f.admits) (r : Bytes) :
    b.image f.write ++ r ≠ [] := by
  intro h
  simp only [Block.image, List.append_assoc] at h
  exact absurd (take_encode_append hb.table _) (by rw [h]; decide)

theorem eq_of_flatMap_image_eq (hb : ∀ b ∈ bs, b.IsAdmitted f.admits)
    (hb' : ∀ b ∈ bs', b.IsAdmitted f.admits)
    (h : bs.flatMap (Block.image f.write) = bs'.flatMap (Block.image f.write)) : bs = bs' := by
  induction bs generalizing bs'
  case nil =>
    cases bs'
    case nil       => rfl
    case cons b bs => exact absurd h.symm (image_ne_nil (hb' b List.mem_cons_self) _)
  case cons b bs hi =>
    cases bs'
    case nil         => exact absurd h (image_ne_nil (hb b List.mem_cons_self) _)
    case cons b' bs' =>
      rw [List.forall_mem_cons] at hb hb'
      obtain ⟨⟨ht, hk, hp⟩, hb⟩ := hb
      obtain ⟨⟨ht', hk', hp'⟩, hb'⟩ := hb'
      simp only [List.flatMap_cons, Block.image, List.append_assoc] at h
      have ⟨table_eq, h⟩ := delimits_table ht ht' h
      have ⟨key_eq, h⟩ := delimits_sized hk hk' h
      rw [← table_eq] at hp'
      have ⟨parts_eq, h⟩ := (f.delimits _ ht).flatMap_eq hp hp' (stops hb) (stops hb') h
      rw [Block.ext table_eq key_eq parts_eq, hi hb hb' h]

def partsOf (f : Framing ι) (s : Storage) (table : String) (key : Bytes) : List ι :=
  (s.read ⟨Catalog.system, table, key⟩ .all).flatMap f.parts

def blocks (f : Framing ι) (s : Storage) : List (Block ι) :=
  Catalog.schema.flatMap fun table =>
    (s.keys Catalog.system table).map fun key => ⟨table, key, f.partsOf s table key⟩

-- All that the storage holds of the schema can be told apart.
def Fits (f : Framing ι) (s : Storage) : Prop :=
  ∀ table ∈ Catalog.schema, ∀ key ∈ s.keys Catalog.system table, key.length < limit ∧
    ∀ i ∈ f.partsOf s table key, f.admits table i

theorem image_eq (f : Framing ι) (s : Storage) :
    image s = (f.blocks s).flatMap (Block.image f.write) := by
  rw [image, blocks, List.flatMap_assoc]
  refine List.flatMap_congr fun table _ => ?_
  rw [List.flatMap_map]
  refine List.flatMap_congr fun key _ => ?_
  rw [partitionImage, Block.image, partsOf, List.flatMap_assoc]
  simp only [f.flatMap_parts]

theorem mem_blocks {b : Block ι} : b ∈ f.blocks s ↔
    b.table ∈ Catalog.schema ∧ b.key ∈ s.keys Catalog.system b.table ∧
      b.parts = f.partsOf s b.table b.key := by
  simp only [blocks, List.mem_flatMap, List.mem_map]
  constructor
  case mp =>
    rintro ⟨table, ht, key, hk, rfl⟩
    exact ⟨ht, hk, rfl⟩
  case mpr =>
    rintro ⟨ht, hk, hp⟩
    exact ⟨b.table, ht, b.key, hk, by rw [← hp]⟩

theorem partsOf_eq_nil_iff : f.partsOf s table key = [] ↔ key ∉ s.keys Catalog.system table := by
  rw [partsOf, List.flatMap_eq_nil_iff, Storage.mem_keys]
  constructor
  case mp =>
    rintro h ⟨n, c, hc⟩
    exact f.parts_ne_nil ⟨c, n⟩ (h _ (Partition.mem_read.mpr ⟨rfl, hc⟩))
  case mpr =>
    intro h c hc
    exact absurd ⟨c.name, c.toStamped, (Partition.mem_read.mp hc).right⟩ h

theorem partsOf_eq_of_blocks_eq (h : f.blocks s = f.blocks s') (ht : table ∈ Catalog.schema)
    (hk : key ∈ s.keys Catalog.system table) : f.partsOf s table key = f.partsOf s' table key := by
  have hm : (⟨table, key, f.partsOf s table key⟩ : Block ι) ∈ f.blocks s :=
    mem_blocks.mpr ⟨ht, hk, rfl⟩
  exact (mem_blocks.mp (h ▸ hm)).right.right

theorem keys_eq_of_partsOf_eq (h : ∀ key, f.partsOf s table key = f.partsOf s' table key) :
    s.keys Catalog.system table = s'.keys Catalog.system table := by
  refine (Storage.ascending_keys ..).eq_of_mem_iff (Storage.ascending_keys ..) fun key => ?_
  rw [← not_iff_not, ← partsOf_eq_nil_iff (f := f), ← partsOf_eq_nil_iff (f := f), h key]

theorem image_eq_iff (hs : f.Fits s) (hs' : f.Fits s') : image s = image s' ↔
    ∀ table ∈ Catalog.schema, ∀ key, f.partsOf s table key = f.partsOf s' table key := by
  have admitted {s : Storage} (hs : f.Fits s) : ∀ b ∈ f.blocks s, b.IsAdmitted f.admits := by
    intro b hb
    obtain ⟨ht, hk, hp⟩ := mem_blocks.mp hb
    have ⟨hl, ha⟩ := hs _ ht _ hk
    exact ⟨ht, hl, hp ▸ ha⟩
  rw [f.image_eq, f.image_eq]
  constructor
  case mp =>
    intro h table ht key
    have hb := eq_of_flatMap_image_eq (admitted hs) (admitted hs') h
    by_cases hk : key ∈ s.keys Catalog.system table
    case pos => exact partsOf_eq_of_blocks_eq hb ht hk
    case neg =>
      by_cases hk' : key ∈ s'.keys Catalog.system table
      case pos => exact (partsOf_eq_of_blocks_eq hb.symm ht hk').symm
      case neg => rw [partsOf_eq_nil_iff.mpr hk, partsOf_eq_nil_iff.mpr hk']
  case mpr =>
    intro h
    have hb : f.blocks s = f.blocks s' := by
      refine List.flatMap_congr fun table ht => ?_
      rw [keys_eq_of_partsOf_eq (h table ht)]
      exact List.map_congr_left fun key _ => by rw [h table ht]
    rw [hb]

end Framing

variable {s s' : Storage} {table : String} {key : Bytes}

-- What a partition holds, in the order of the names and without the instants.
def contents (s : Storage) (table : String) (key : Bytes) : List (CellName × Bytes) :=
  (s.read ⟨Catalog.system, table, key⟩ .all).map fun c => (c.name, c.value)

def depths (s : Storage) (table : String) (key : Bytes) : List Nat :=
  (contents s table key).map (·.1.length)

theorem mem_contents {n : CellName} {v : Bytes} : (n, v) ∈ contents s table key ↔
    ∃ t, (s.partition ⟨Catalog.system, table, key⟩).cells[n]? = some ⟨v, t⟩ := by
  simp only [contents, List.mem_map, Storage.read, Partition.mem_read, CellRange.contains, true_and]
  constructor
  case mp  => rintro ⟨c, hc, ⟨⟩⟩; exact ⟨c.timestamp, hc⟩
  case mpr => rintro ⟨t, hc⟩; exact ⟨⟨⟨v, t⟩, n⟩, hc, rfl⟩

theorem contents_eq_of_mem_iff (h : ∀ c, c ∈ contents s table key ↔ c ∈ contents s' table key) :
    contents s table key = contents s' table key := by
  have ascending (s : Storage) : Ascending ((contents s table key).map (·.1)) := by
    rw [contents, List.map_map]
    exact Partition.ascending_read
  exact eq_of_ascending_map (ascending s) (ascending s') h

-- The components of the name, then the value.
def fields (c : CellName × Bytes) : List Bytes :=
  c.1.map Utf8.encode ++ [c.2]

-- Fields that are found without knowing where a cell begins.
def byField : Framing Bytes where
  parts c  := fields (c.name, c.value)
  write    := sized
  admits _ b := b.length < limit ∧ b.length ≠ BigEndian.decode tag
  parts_ne_nil c  := by simp [fields]
  flatMap_parts c := by simp [fields, cellImage, List.flatMap_map, Function.comp_def]
  delimits _ _ _ _ _ _ h h' := delimits_sized h.left h'.left
  untagged _ _ h  := take_sized_append_ne h.left h.right

instance (s : Storage) : Decidable (byField.Fits s) :=
  inferInstanceAs (Decidable (∀ table ∈ Catalog.schema, ∀ key ∈ s.keys Catalog.system table,
    key.length < limit ∧ ∀ b ∈ byField.partsOf s table key,
      b.length < limit ∧ b.length ≠ BigEndian.decode tag))

theorem partsOf_byField : byField.partsOf s table key = (contents s table key).flatMap fields := by
  rw [contents, List.flatMap_map]
  rfl

-- Fields fall into cells in one way when it is known how deep the names are.
theorem eq_of_fields_eq {cs cs' : List (CellName × Bytes)}
    (hd : cs.map (·.1.length) = cs'.map (·.1.length))
    (hf : cs.flatMap fields = cs'.flatMap fields) : cs = cs' := by
  induction cs generalizing cs'
  case nil => simpa using hd
  case cons c cs hi =>
    cases cs'
    case nil          => simp at hd
    case cons c' cs' =>
      simp only [List.map_cons, List.cons.injEq] at hd
      simp only [List.flatMap_cons] at hf
      have ⟨hc, hf⟩ := List.append_inj hf (by simp [fields, hd.left])
      have ⟨hn, hv⟩ := List.append_inj hc (by simp [hd.left])
      have he : c.1 = c'.1 := List.map_injective_iff.mpr (fun _ _ => Utf8.encode_inj.mp) hn
      rw [hi hd.right hf, Prod.ext he (List.singleton_inj.mp hv)]

theorem contents_eq_iff : contents s table key = contents s' table key ↔
    byField.partsOf s table key = byField.partsOf s' table key ∧
      depths s table key = depths s' table key := by
  rw [partsOf_byField, partsOf_byField]
  constructor
  case mp  => intro h; rw [depths, h]; exact ⟨rfl, rfl⟩
  case mpr => exact fun ⟨hf, hd⟩ => eq_of_fields_eq hd hf

theorem image_separates (hs : byField.Fits s) (hs' : byField.Fits s') :
    (image s = image s' ↔ ∀ table ∈ Catalog.schema, ∀ key,
      byField.partsOf s table key = byField.partsOf s' table key) ∧
    ((∀ table ∈ Catalog.schema, ∀ key, contents s table key = contents s' table key) ↔
      image s = image s' ∧
        ∀ table ∈ Catalog.schema, ∀ key, depths s table key = depths s' table key) := by
  have hi := Framing.image_eq_iff hs hs'
  refine ⟨hi, ?_⟩
  simp only [hi, contents_eq_iff, ← forall_and]

-- Cells of the keyspace `app`.
def attributes (cells : List (CellName × String)) : Mutation :=
  .ofFamilies Catalog.system (Utf8.encode "app")
    [(Catalog.keyspaces, cells.map fun c => .write c.1 ⟨Utf8.encode c.2, 1⟩)]

-- Two stores with the same fields, in three cells and in two.
theorem image_separates_of_deeper_name :
    let flat := attributes [([""], ""), (["durable_writes"], "false"), (["note"], "true")]
    let deep := attributes [([""], ""), (["durable_writes", "false", "note"], "true")]
    ∃ r r', (Replica.empty 0).merge [flat] = .ok r ∧ (Replica.empty 0).merge [deep] = .ok r' ∧
      byField.Fits r.storage ∧ byField.Fits r'.storage ∧
      (image r.storage = image r'.storage ↔ ∀ table ∈ Catalog.schema, ∀ key,
        byField.partsOf r.storage table key = byField.partsOf r'.storage table key) ∧
      ((∀ table ∈ Catalog.schema, ∀ key,
          contents r.storage table key = contents r'.storage table key) ↔
        image r.storage = image r'.storage ∧
          ∀ table ∈ Catalog.schema, ∀ key,
            depths r.storage table key = depths r'.storage table key) := by
  intro flat deep
  have ⟨r, hr, hs⟩ := exists_of_any_toOption (show ((Replica.empty 0).merge [flat]).toOption.any
    (fun (r : Replica) => decide (byField.Fits r.storage)) = true by decide +kernel)
  have ⟨r', hr', hs'⟩ := exists_of_any_toOption (show ((Replica.empty 0).merge [deep]).toOption.any
    (fun (r : Replica) => decide (byField.Fits r.storage)) = true by decide +kernel)
  rw [decide_eq_true_eq] at hs hs'
  exact ⟨r, r', hr, hr', hs, hs', image_separates hs hs'⟩

-- Stores that hold other cells, and show another keyspace, can have one image.
theorem image_eq_of_deeper_name :
    let flat := attributes [([""], ""), (["durable_writes"], "false"), (["note"], "true")]
    let deep := attributes [([""], ""), (["durable_writes", "false", "note"], "true")]
    ∃ r r', (Replica.empty 0).merge [flat] = .ok r ∧ (Replica.empty 0).merge [deep] = .ok r' ∧
      image r.storage = image r'.storage ∧
      contents r.storage Catalog.keyspaces (Utf8.encode "app") ≠
        contents r'.storage Catalog.keyspaces (Utf8.encode "app") ∧
      (r.schema.keyspace "app").map (·.durableWrites) = some false ∧
      (r'.schema.keyspace "app").map (·.durableWrites) = some true := by
  intro flat deep
  have h : ((Replica.empty 0).merge [flat]).toOption.any (fun (r : Replica) =>
      ((Replica.empty 0).merge [deep]).toOption.any fun (r' : Replica) => decide (
        image r.storage = image r'.storage ∧
        contents r.storage Catalog.keyspaces (Utf8.encode "app") ≠
          contents r'.storage Catalog.keyspaces (Utf8.encode "app") ∧
        (r.schema.keyspace "app").map (·.durableWrites) = some false ∧
        (r'.schema.keyspace "app").map (·.durableWrites) = some true)) = true := by
    decide +kernel
  have ⟨r, hr, h⟩ := exists_of_any_toOption h
  have ⟨r', hr', h⟩ := exists_of_any_toOption h
  exact ⟨r, r', hr, hr', of_decide_eq_true h⟩

end ClusterMetadata.SchemaVersion
