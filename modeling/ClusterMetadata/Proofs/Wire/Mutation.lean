import ClusterMetadata.Proofs.Storage.Merging
import ClusterMetadata.Proofs.Wire.CellName
import ClusterMetadata.Wire.Mutation

/-!
Mutations and batches are read back as they were written, and reading stops where the writing ended
(`written_reads_back`).
-/

namespace ClusterMetadata

def Modification.valueLength : Modification → Nat
  | write _ c => c.value.length
  | _         => 0

-- Every count and every length of a value fits its field on the wire.
structure Mutation.Bounded (m : Mutation) : Prop where
  tables        : m.families.size < Wire.countLimit
  modifications : ∀ f ∈ m.families.toList, f.2.length < Wire.countLimit
  values        : ∀ f ∈ m.families.toList, ∀ mod ∈ f.2, mod.valueLength < Wire.countLimit

instance (m : Mutation) : Decidable m.Bounded :=
  decidable_of_iff (m.families.size < Wire.countLimit ∧
      (∀ f ∈ m.families.toList, f.2.length < Wire.countLimit) ∧
      ∀ f ∈ m.families.toList, ∀ mod ∈ f.2, mod.valueLength < Wire.countLimit)
    ⟨fun ⟨ht, hm, hv⟩ => ⟨ht, hm, hv⟩, fun ⟨ht, hm, hv⟩ => ⟨ht, hm, hv⟩⟩

namespace Wire

variable {version : Int} {b n s : Bytes} {name : CellName} {what : String}

-- What every modification begins with.
theorem Spans.tagged {α : Type} {tag : UInt8} {f : UInt8 → CellName → Reader α} {a : α}
    (hn : writeName name = .ok n) (hs : writeShort what n = .ok s) (hf : Spans (f tag name) b a) :
    Spans (do let tag ← readByte; let name ← readName (← readShort); f tag name)
      (tag :: s ++ b) a :=
  (spans_readByte tag).bind ((spans_readShort hs).bind
    ((Spans.lift (readName_of_writeName hn)).bind hf))

theorem spans_readDeletion (d : DeletionTime) : Spans readDeletion (writeDeletion d) d :=
  (spans_readInt64 _).bind ((spans_readInt32 _).bind_nil (.pure d))

theorem spans_readModification {m : Modification} (hv : m.valueLength < countLimit)
    (h : writeModification version m = .ok b) : Spans (readModification version) b m := by
  cases m
  case write name c =>
    have ⟨n, hn, h⟩ := bind_eq_ok_iff.mp h
    have ⟨s, hs, h⟩ := bind_eq_ok_iff.mp h
    cases h
    rw [List.append_assoc, List.append_assoc]
    refine .tagged hn hs ?_
    exact (spans_readInt64 _).bind ((spans_readCount hv).bind ((spans_take _).bind_nil (.pure _)))
  case tombstone name d =>
    have ⟨n, hn, h⟩ := bind_eq_ok_iff.mp h
    have ⟨s, hs, h⟩ := bind_eq_ok_iff.mp h
    cases h
    exact .tagged hn hs ((spans_readDeletion d).bind_nil (.pure _))
  case rangeTombstone path d =>
    have ⟨_, hc, h⟩ := bind_eq_ok_iff.mp h
    have ⟨n, hn, h⟩ := bind_eq_ok_iff.mp h
    have ⟨s, hs, h⟩ := bind_eq_ok_iff.mp h
    cases h
    exact .tagged hn hs ((Spans.lift hc).bind ((spans_readDeletion d).bind_nil (.pure _)))

theorem spans_readFamily {f : String × List Modification} (hl : f.2.length < countLimit)
    (hv : ∀ mod ∈ f.2, mod.valueLength < countLimit) (h : writeFamily version f = .ok b) :
    Spans (readFamily version) b f := by
  have ⟨table, ht, h⟩ := bind_eq_ok_iff.mp h
  have ⟨mods, hm, h⟩ := bind_eq_ok_iff.mp h
  cases h
  have hr := spans_readMany (fun mod hmod b => spans_readModification (hv mod hmod)) hm
  rw [List.append_assoc]
  exact (spans_readText ht).bind ((spans_readCount hl).bind (hr.bind_nil (.pure _)))

theorem spans_readMutation {m : Mutation} (hm : m.Bounded) (h : writeMutation version m = .ok b) :
    Spans (readMutation version) b m := by
  have ⟨keyspace, hk, h⟩ := bind_eq_ok_iff.mp h
  have ⟨key, hb, h⟩ := bind_eq_ok_iff.mp h
  have ⟨families, hf, h⟩ := bind_eq_ok_iff.mp h
  cases h
  have hr := spans_readMany
    (fun f hf b => spans_readFamily (hm.modifications f hf) (hm.values f hf)) hf
  have hm' :
      Spans (pure (Mutation.ofFamilies m.keyspace m.key m.families.toList) : Reader _) [] m :=
    m.ofFamilies_toList.symm ▸ .pure m
  rw [Std.ExtTreeMap.length_toList] at hr
  rw [List.append_assoc, List.append_assoc]
  exact (spans_readText hk).bind ((spans_readShort hb).bind
    ((spans_readCount hm.tables).bind (hr.bind_nil hm')))

theorem spans_readBatch {batch : List Mutation} (hl : batch.length < countLimit)
    (hb : ∀ m ∈ batch, m.Bounded) (h : writeBatch version batch = .ok b) :
    Spans (readBatch version) b batch := by
  have ⟨ms, hm, h⟩ := bind_eq_ok_iff.mp h
  cases h
  exact (spans_readCount hl).bind (spans_readMany (fun m hm b => spans_readMutation (hb m hm)) hm)

theorem reads_readMutation {m : Mutation} (hm : m.Bounded) (h : writeMutation version m = .ok b) :
    Reads (readMutation version) b m :=
  (spans_readMutation hm h).reads

theorem reads_readBatch {batch : List Mutation} (hl : batch.length < countLimit)
    (hb : ∀ m ∈ batch, m.Bounded) (h : writeBatch version batch = .ok b) :
    Reads (readBatch version) b batch :=
  (spans_readBatch hl hb h).reads

-- The bytes of a batch tell the keyspace of its first mutation.
theorem keyspace_eq_of_writeBatch {version' : Int} {m m' : Mutation} {batch batch' : List Mutation}
    (h : writeBatch version (m :: batch) = .ok b)
    (h' : writeBatch version' (m' :: batch') = .ok b) : m.keyspace = m'.keyspace := by
  have reads {version : Int} {m : Mutation} {batch : List Mutation}
      (h : writeBatch version (m :: batch) = .ok b) :
      ∃ rest, readText (b.drop 4) = .ok (m.keyspace, rest) := by
    obtain ⟨ms, hms, h⟩ := bind_eq_ok_iff.mp h
    cases h
    obtain ⟨b₁, b₂, hm, -, rfl⟩ := writeAll_cons_eq_ok hms
    obtain ⟨keyspace, hk, hm⟩ := bind_eq_ok_iff.mp hm
    obtain ⟨key, -, hm⟩ := bind_eq_ok_iff.mp hm
    obtain ⟨families, -, hm⟩ := bind_eq_ok_iff.mp hm
    cases hm
    refine ⟨key ++ (writeCount m.families.size ++ (families ++ b₂)), ?_⟩
    have hl : (writeCount (m :: batch).length).length = 4 := BigEndian.length_encode ..
    rw [List.drop_left' hl]
    simp only [List.append_assoc]
    exact (spans_readText hk).reads _
  obtain ⟨rest, hr⟩ := reads h
  obtain ⟨rest', hr'⟩ := reads h'
  exact congrArg Prod.fst (Except.ok.inj (hr.symm.trans hr'))

theorem written_reads_back (version : Int) (rest : Bytes) :
    (∀ (m : Mutation) (b : Bytes), m.Bounded → writeMutation version m = .ok b →
      readMutation version (b ++ rest) = .ok (m, rest)) ∧
    (∀ (batch : List Mutation) (b : Bytes), batch.length < countLimit → (∀ m ∈ batch, m.Bounded) →
      writeBatch version batch = .ok b →
        readBatch version (b ++ rest) = .ok (batch, rest) ∧
        run (readBatch version) (b ++ rest) = .ok batch) := by
  constructor
  case left => exact fun m b hm h => reads_readMutation hm h rest
  case right =>
    intro batch b hl hb h
    have hr := reads_readBatch hl hb h
    exact ⟨hr rest, hr.run_eq rest⟩

-- A mutation without tables, a table without modifications, empty names and the outermost instants.
theorem written_reads_back_of_every_kind :
    let m := Mutation.ofFamilies "" [] [("", []), ("log", [.write ["1", ""] ⟨[0xff, 0], -1⟩,
      .tombstone [] ⟨Int64.minValue, Int32.maxValue⟩, .rangeTombstone ["2"] ⟨0, Int32.minValue⟩])]
    let batch := [Mutation.empty "ks" [0xc3], m]
    let rest := [0, 1]
    m.Bounded ∧ batch.length < countLimit ∧ (∀ m ∈ batch, m.Bounded) ∧
      (∃ b, writeMutation Protocol.current m = .ok b ∧
        readMutation Protocol.current (b ++ rest) = .ok (m, rest)) ∧
      ∃ b, writeBatch Protocol.current batch = .ok b ∧
        readBatch Protocol.current (b ++ rest) = .ok (batch, rest) ∧
        run (readBatch Protocol.current) (b ++ rest) = .ok batch := by
  intro m batch rest
  have hm : m.Bounded := by decide +kernel
  have hb : ∀ m ∈ batch, m.Bounded := by decide +kernel
  have hl : batch.length < countLimit := by decide
  have ⟨b, h⟩ := isOk_iff.mp
    (show (writeMutation Protocol.current m).isOk = true by decide +kernel)
  have ⟨b', h'⟩ := isOk_iff.mp (show (writeBatch Protocol.current batch).isOk = true by
    decide +kernel)
  have ⟨one, all⟩ := written_reads_back Protocol.current rest
  exact ⟨hm, hl, hb, ⟨b, h, one m b hm h⟩, b', h', all batch b' hl hb h'⟩

end Wire
end ClusterMetadata
