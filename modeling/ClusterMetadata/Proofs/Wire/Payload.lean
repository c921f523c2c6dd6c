import ClusterMetadata.Proofs.Wire.ForwardList
import ClusterMetadata.Proofs.Wire.Limits
import ClusterMetadata.Proofs.Wire.Mutation

/-!
Payloads that were not written as they stand. Of one that was cut off it is found that bytes are
missing, wherever the cut is (`written_part_truncated`). One that is read can be written again: a
table that comes twice is then written once, so the new payload is no longer than what was read of
the old one (`read_writes_back`).
-/

namespace ClusterMetadata

-- How many bytes the parts of a mutation take.

def Modification.writtenLength (mod : Modification) : Nat :=
  Wire.nameLength mod.path + mod.valueLength + 15

def familyLength (f : String × List Modification) : Nat :=
  (Utf8.encode f.1).length + 6 + (f.2.map Modification.writtenLength).sum

def Mutation.writtenLength (m : Mutation) : Nat :=
  (Utf8.encode m.keyspace).length + m.key.length + 8 + (m.families.toList.map familyLength).sum

section

variable (mod : Modification) (f : String × List Modification) (m : Mutation)

theorem Modification.valueLength_lt_writtenLength : mod.valueLength < mod.writtenLength := by
  unfold writtenLength
  omega

theorem sum_lt_familyLength : (f.2.map Modification.writtenLength).sum < familyLength f := by
  unfold familyLength
  omega

theorem Mutation.sum_lt_writtenLength :
    (m.families.toList.map familyLength).sum < m.writtenLength := by
  unfold writtenLength
  omega

end

theorem Mutation.bounded_of_writtenLength {m : Mutation} (h : m.writtenLength < Wire.countLimit) :
    m.Bounded := by
  have all := m.sum_lt_writtenLength.trans h
  have family {f} (hf : f ∈ m.families.toList) :
      (f.2.map Modification.writtenLength).sum < Wire.countLimit :=
    (sum_lt_familyLength f).trans_le ((le_sum_map hf).trans all.le)
  constructor
  case tables =>
    have hl := length_le_sum_map (fun f => Nat.zero_lt_of_lt (sum_lt_familyLength f))
      m.families.toList
    rw [Std.ExtTreeMap.length_toList] at hl
    exact hl.trans_lt all
  case modifications =>
    intro f hf
    have hl := length_le_sum_map (fun mod => Nat.zero_lt_of_lt mod.valueLength_lt_writtenLength) f.2
    exact hl.trans_lt (family hf)
  case values =>
    intro f hf mod hmod
    exact mod.valueLength_lt_writtenLength.trans_le ((le_sum_map hmod).trans (family hf).le)

-- The tables of a mutation, in some order, before and after one is extended.
theorem Mutation.toList_extend_perm (m : Mutation) (table : String) (mods : List Modification) :
    (m.extend table mods).families.toList.Perm ((table, mods) :: m.families.toList) ∨
      ∃ old others, m.families.toList.Perm ((table, old) :: others) ∧
        (m.extend table mods).families.toList.Perm ((table, old ++ mods) :: others) := by
  have he : (m.extend table mods).families =
      m.families.insert table (m.families[table]?.getD [] ++ mods) := by
    refine Std.ExtTreeMap.ext_getElem? fun table' => ?_
    rw [extend, Std.ExtTreeMap.getElem?_alter, Std.ExtTreeMap.getElem?_insert]
  rw [he]
  cases ho : m.families[table]?
  case none     => exact .inl (SortedMap.toList_insert_perm ho)
  case some old =>
    have hn := SortedMap.toList_perm_erase
      (Std.ExtTreeMap.getElem?_insert_self (t := m.families) (k := table) (v := old ++ mods))
    rw [SortedMap.erase_insert] at hn
    exact .inr ⟨old, _, SortedMap.toList_perm_erase ho, hn⟩

theorem Mutation.forall_mem_extendAll {m : Mutation}
    {families : List (String × List Modification)} {p : String × List Modification → Prop}
    (append : ∀ {table mods mods'}, p (table, mods) → p (table, mods') → p (table, mods ++ mods'))
    (hm : ∀ f ∈ m.families.toList, p f) (hf : ∀ f ∈ families, p f) :
    ∀ f ∈ (m.extendAll families).families.toList, p f := by
  induction families generalizing m
  case nil => exact hm
  case cons f families hi =>
    have ⟨hp, hf⟩ := List.forall_mem_cons.mp hf
    refine hi (m := m.extend f.1 f.2) (fun f' h => ?_) hf
    rcases m.toList_extend_perm f.1 f.2 with he | ⟨old, others, ho, he⟩
    case inl => exact List.forall_mem_cons.mpr ⟨hp, hm⟩ f' (he.mem_iff.mp h)
    case inr =>
      have ⟨hold, hothers⟩ := List.forall_mem_cons.mp fun f' h => hm f' (ho.mem_iff.mpr h)
      exact List.forall_mem_cons.mpr ⟨append hold hp, hothers⟩ f' (he.mem_iff.mp h)

-- Putting tables together saves the head of the second one.
theorem Mutation.sum_extendAll_le (m : Mutation) (families : List (String × List Modification)) :
    ((m.extendAll families).families.toList.map familyLength).sum ≤
      (m.families.toList.map familyLength).sum + (families.map familyLength).sum := by
  induction families generalizing m
  case nil => exact Nat.le_refl _
  case cons f families hi =>
    refine (hi (m.extend f.1 f.2)).trans ?_
    rw [List.map_cons, List.sum_cons]
    rcases m.toList_extend_perm f.1 f.2 with he | ⟨old, others, ho, he⟩
    case inl =>
      have hs := (he.map familyLength).sum_eq
      rw [List.map_cons, List.sum_cons] at hs
      change _ = familyLength f + _ at hs
      omega
    case inr =>
      rw [(he.map familyLength).sum_eq, (ho.map familyLength).sum_eq, List.map_cons, List.map_cons,
        List.sum_cons, List.sum_cons]
      simp only [familyLength, List.map_append, List.sum_append]
      omega

namespace Wire

variable {version : Int} {b taken : Bytes} {what : String}

theorem length_of_writeShort {v : Bytes} (h : writeShort what v = .ok b) :
    b.length = v.length + 2 := by
  obtain ⟨_, rfl⟩ := writeShort_eq_ok h
  rw [List.length_append, BigEndian.length_encode]
  omega

theorem length_of_writeAll {α : Type} {write : α → Except WireError Bytes} {w : α → Nat}
    {as : List α} (hw : ∀ a b, write a = .ok b → b.length = w a) (h : writeAll write as = .ok b) :
    b.length = (as.map w).sum := by
  induction as generalizing b
  case nil => cases h; rfl
  case cons a as hi =>
    obtain ⟨b₁, b₂, h₁, h₂, rfl⟩ := writeAll_cons_eq_ok h
    rw [List.length_append, hw a b₁ h₁, hi h₂, List.map_cons, List.sum_cons]

-- A name behind its length, and what else there is.
theorem length_of_writeShort_writeName {name : CellName} {g : Bytes → Bytes} {k : Nat}
    (hg : ∀ n, (g n).length = n.length + k)
    (h : (do return g (← writeShort what (← writeName name))) = .ok b) :
    b.length = nameLength name + 2 + k := by
  have ⟨n, hn, h⟩ := bind_eq_ok_iff.mp h
  have ⟨s, hs, h⟩ := bind_eq_ok_iff.mp h
  cases h
  rw [hg, length_of_writeShort hs, length_of_writeName hn]

theorem length_writeDeletion (d : DeletionTime) : (writeDeletion d).length = 12 := by
  rw [writeDeletion, List.length_append, length_writeInt64, length_writeInt32]

theorem length_of_writeModification {mod : Modification}
    (h : writeModification version mod = .ok b) : b.length = mod.writtenLength := by
  cases mod
  case write name c =>
    have hl := length_of_writeShort_writeName (k := c.value.length + 13)
      (fun n => by simp; omega) h
    rw [hl, Modification.writtenLength, Modification.path, Modification.valueLength]
    omega
  case tombstone name d =>
    exact length_of_writeShort_writeName (k := 13) (by simp [length_writeDeletion]) h
  case rangeTombstone path d =>
    have ⟨_, _, h⟩ := bind_eq_ok_iff.mp h
    exact length_of_writeShort_writeName (k := 13) (by simp [length_writeDeletion]) h

theorem length_of_writeFamily {f : String × List Modification}
    (h : writeFamily version f = .ok b) : b.length = familyLength f := by
  have ⟨table, ht, h⟩ := bind_eq_ok_iff.mp h
  have ⟨mods, hm, h⟩ := bind_eq_ok_iff.mp h
  cases h
  rw [List.length_append, List.length_append, length_of_writeShort ht,
    length_of_writeAll (fun _ _ => length_of_writeModification) hm, length_writeCount, familyLength]

theorem length_of_writeMutation {m : Mutation} (h : writeMutation version m = .ok b) :
    b.length = m.writtenLength := by
  have ⟨keyspace, hk, h⟩ := bind_eq_ok_iff.mp h
  have ⟨key, hb, h⟩ := bind_eq_ok_iff.mp h
  have ⟨families, hf, h⟩ := bind_eq_ok_iff.mp h
  cases h
  rw [List.length_append, List.length_append, List.length_append, length_of_writeShort hk,
    length_of_writeShort hb, length_of_writeAll (fun _ _ => length_of_writeFamily) hf,
    length_writeCount, Mutation.writtenLength]
  change _ + (m.families.toList.map familyLength).sum = _
  omega

-- What is read can be written, in as many bytes or fewer.
def Rewrites {α : Type} (write : α → Except WireError Bytes) (taken : Bytes) (a : α) : Prop :=
  ∃ b, write a = .ok b ∧ b.length ≤ taken.length

theorem accepts_readMany_rewrites {α : Type} {write : α → Except WireError Bytes} {read : Reader α}
    (hr : Accepts read (Rewrites write)) (n : Nat) :
    Accepts (readMany read n) fun taken as =>
      as.length = n ∧ Rewrites (writeAll write) taken as := by
  refine accepts_readMany hr ⟨[], rfl, Nat.le_refl 0⟩ ?_ n
  rintro taken taken' a as ⟨b, hw, hl⟩ ⟨b', hw', hl'⟩
  refine ⟨b ++ b', bind_eq_ok_iff.mpr ⟨b, hw, bind_eq_ok_iff.mpr ⟨b', hw', rfl⟩⟩, ?_⟩
  simp only [List.length_append]
  omega

theorem rewrites_modification {mod : Modification} (hn : nameLength mod.path < shortLimit)
    (hc : mod.CarriedBy version) (hl : mod.writtenLength ≤ taken.length) :
    Rewrites (writeModification version) taken mod := by
  have ⟨b, h⟩ := isOk_iff.mp (isOk_writeModification.mpr ⟨hn, hc⟩)
  exact ⟨b, h, (length_of_writeModification h).trans_le hl⟩

theorem accepts_readDeletion : Accepts readDeletion fun taken _ => taken.length = 12 := by
  refine accepts_readInt64.bind fun taken markedAt h =>
    accepts_readInt32.bind fun taken' localSeconds h' => .pure ?_
  subst h h'
  simp

theorem accepts_readModification :
    Accepts (readModification version) (Rewrites (writeModification version)) := by
  refine accepts_readByte.bind fun taken₁ tag h₁ => (accepts_readShort "").bind fun taken₂ v h₂ =>
    .bind_lift fun name hn => ?_
  have hs : nameLength name < shortLimit := length_of_readName hn ▸ (writeShort_eq_ok h₂).left
  -- The kinds differ in what comes behind the name.
  have rewrites {mod : Modification} {taken₃ : Bytes} (hp : mod.path = name)
      (hc : mod.CarriedBy version) (hl : taken₃.length = mod.valueLength + 12) :
      Rewrites (writeModification version) (taken₁ ++ (taken₂ ++ taken₃)) mod := by
    subst hp h₁
    refine rewrites_modification hs hc ?_
    simp only [List.length_append, List.length_singleton, length_of_writeShort h₂,
      length_of_readName hn, hl, Modification.writtenLength]
    omega
  split
  case isTrue =>
    refine accepts_readInt64.bind fun taken₃ timestamp h₃ => accepts_readCount.bind
      fun taken₄ n h₄ => (accepts_take n).bind fun taken₅ value h₅ => .pure ?_
    refine rewrites rfl trivial ?_
    obtain ⟨_, rfl⟩ := h₄
    obtain ⟨rfl, rfl⟩ := h₅
    simp [h₃, Modification.valueLength]
    omega
  split
  case isTrue =>
    refine accepts_readDeletion.bind fun taken₃ d h₃ => .pure (rewrites rfl trivial ?_)
    rwa [List.append_nil]
  split
  case isTrue =>
    refine .bind_lift fun _ hc => accepts_readDeletion.bind fun taken₃ d h₃ =>
      .pure (rewrites rfl (checkRange_eq_ok_iff.mp hc) ?_)
    rwa [List.append_nil]
  case isFalse => exact fun _ _ _ => nofun

theorem accepts_readFamily :
    Accepts (readFamily version) (Rewrites (writeFamily version)) := by
  refine accepts_readText.bind fun taken₁ table h₁ => accepts_readCount.bind fun taken₂ n h₂ =>
    (accepts_readMany_rewrites accepts_readModification n).bind fun taken₃ mods h₃ => .pure ?_
  obtain ⟨_, rfl⟩ := h₂
  obtain ⟨rfl, b, hw, hl⟩ := h₃
  refine ⟨_, bind_eq_ok_iff.mpr ⟨taken₁, h₁, bind_eq_ok_iff.mpr ⟨b, hw, rfl⟩⟩, ?_⟩
  simp only [List.length_append, List.length_nil]
  omega

-- What can be written of the tables one by one can be written of them together.
theorem rewrites_families {keyspace : String} {key : Bytes}
    {families : List (String × List Modification)}
    (h : Rewrites (writeAll (writeFamily version)) taken families) :
    Rewrites (writeAll (writeFamily version)) taken
      (Mutation.ofFamilies keyspace key families).families.toList := by
  obtain ⟨b, hw, hl⟩ := h
  have hf := isOk_writeAll.mp (isOk_iff.mpr ⟨b, hw⟩)
  have hf' : ∀ f ∈ (Mutation.ofFamilies keyspace key families).families.toList,
      (writeFamily version f).isOk = true := by
    refine Mutation.forall_mem_extendAll ?_ (by simp [Mutation.empty]) hf
    intro table mods mods' h h'
    rw [isOk_writeFamily] at h h' ⊢
    exact ⟨h.left, List.forall_mem_append.mpr ⟨h.right, h'.right⟩⟩
  obtain ⟨b', hw'⟩ := isOk_iff.mp (isOk_writeAll.mpr hf')
  refine ⟨b', hw', Nat.le_trans ?_ hl⟩
  rw [length_of_writeAll (fun _ _ => length_of_writeFamily) hw,
    length_of_writeAll (fun _ _ => length_of_writeFamily) hw']
  have hs := (Mutation.empty keyspace key).sum_extendAll_le families
  rwa [show (Mutation.empty keyspace key).families.toList = [] by simp [Mutation.empty],
    List.map_nil, List.sum_nil, Nat.zero_add] at hs

theorem accepts_readMutation :
    Accepts (readMutation version) (Rewrites (writeMutation version)) := by
  refine accepts_readText.bind fun taken₁ keyspace h₁ => (accepts_readShort "partition key").bind
    fun taken₂ key h₂ => accepts_readCount.bind fun taken₃ n h₃ =>
      (accepts_readMany_rewrites accepts_readFamily n).bind fun taken₄ families h₄ => .pure ?_
  obtain ⟨_, rfl⟩ := h₃
  obtain ⟨b, hw, hl⟩ := rewrites_families h₄.right
  have ⟨hk, hb⟩ := (Mutation.empty keyspace key).partition_extendAll families
  refine ⟨_, bind_eq_ok_iff.mpr ⟨taken₁, hk ▸ h₁, bind_eq_ok_iff.mpr ⟨taken₂, hb ▸ h₂,
    bind_eq_ok_iff.mpr ⟨b, hw, rfl⟩⟩⟩, ?_⟩
  simp only [List.length_append, List.length_nil, length_writeCount]
  omega

theorem accepts_readBatch : Accepts (readBatch version) (Rewrites (writeBatch version)) := by
  refine accepts_readCount.bind fun taken₁ n h₁ =>
    (accepts_readMany_rewrites accepts_readMutation n).mono ?_
  rintro taken₂ batch ⟨rfl, b, hw, hl⟩
  obtain ⟨_, rfl⟩ := h₁
  refine ⟨_, bind_eq_ok_iff.mpr ⟨b, hw, rfl⟩, ?_⟩
  simp only [List.length_append]
  omega

-- A short payload has small counts only, so it is read as it was written.

theorem spans_short_mutation {m : Mutation} (hb : b.length < countLimit)
    (h : writeMutation version m = .ok b) : Spans (readMutation version) b m := by
  rw [length_of_writeMutation h] at hb
  exact spans_readMutation (Mutation.bounded_of_writtenLength hb) h

theorem spans_short_batch {batch : List Mutation} (hb : b.length < countLimit)
    (h : writeBatch version batch = .ok b) : Spans (readBatch version) b batch := by
  have ⟨ms, hm, he⟩ := bind_eq_ok_iff.mp h
  have hs : (batch.map Mutation.writtenLength).sum < countLimit := by
    cases he
    rw [← length_of_writeAll (fun _ _ => length_of_writeMutation) hm]
    rw [List.length_append] at hb
    omega
  have hl := length_le_sum_map (fun m => Nat.zero_lt_of_lt m.sum_lt_writtenLength) batch
  refine spans_readBatch (hl.trans_lt hs) (fun m hm => ?_) h
  exact Mutation.bounded_of_writtenLength ((le_sum_map hm).trans_lt hs)

theorem exists_writing {α : Type} {write : α → Except WireError Bytes} {read : Reader α} {a : α}
    (hr : Accepts read (Rewrites write)) (hb : b.length < countLimit)
    (hs : ∀ {b}, b.length < countLimit → write a = .ok b → Spans read b a)
    (h : run read b = .ok a) : ∃ taken rest b', b = taken ++ rest ∧ read b = .ok (a, rest) ∧
      write a = .ok b' ∧ b'.length ≤ taken.length ∧ run read b' = .ok a := by
  have ⟨rest, h⟩ := run_eq_ok_iff.mp h
  obtain ⟨taken, rfl, b', hw, hl⟩ := hr b a rest h
  have hb' : b'.length < countLimit := by
    rw [List.length_append] at hb
    omega
  exact ⟨taken, rest, b', rfl, h, hw, hl, (hs hb' hw).run_eq⟩

theorem read_writes_back (version : Int) (b : Bytes) (hb : b.length < countLimit) :
    (∀ m : Mutation, run (readMutation version) b = .ok m →
      ∃ taken rest b', b = taken ++ rest ∧ readMutation version b = .ok (m, rest) ∧
        writeMutation version m = .ok b' ∧ b'.length ≤ taken.length ∧
          run (readMutation version) b' = .ok m) ∧
    ∀ batch : List Mutation, run (readBatch version) b = .ok batch →
      ∃ taken rest b', b = taken ++ rest ∧ readBatch version b = .ok (batch, rest) ∧
        writeBatch version batch = .ok b' ∧ b'.length ≤ taken.length ∧
          run (readBatch version) b' = .ok batch :=
  ⟨fun _ => exists_writing accepts_readMutation hb spans_short_mutation,
    fun _ => exists_writing accepts_readBatch hb spans_short_batch⟩

-- A table in two places, the second after another table; bytes other than the end marker at the
-- ends of the components; and a byte that belongs to nothing.
theorem read_writes_back_of_repeated_table :
    let version := Protocol.current
    let b : Bytes := [0, 1, 0x6b, 0, 0, 0, 0, 0, 3,
      0, 1, 0x74, 0, 0, 0, 1, 0, 0, 7, 0, 1, 0x61, 9, 0, 0, 0xff, 0, 0, 0, 0, 0, 0, 0, 5,
        0, 0, 0, 1, 0x78,
      0, 1, 0x73, 0, 0, 0, 0,
      0, 1, 0x74, 0, 0, 0, 1, 1, 0, 0, 0, 0, 0, 0, 0, 0, 0, 6, 0, 0, 0, 0,
      0xff]
    let m := Mutation.ofFamilies "k" []
      [("t", [.write ["a", ""] ⟨[0x78], 5⟩, .tombstone [] ⟨6, 0⟩]), ("s", [])]
    let b' := [0, 0, 0, 1] ++ b
    b.length < countLimit ∧ b'.length < countLimit ∧
    run (readMutation version) b = .ok m ∧ run (readBatch version) b' = .ok [m] ∧
    (∃ taken rest w, b = taken ++ rest ∧ readMutation version b = .ok (m, rest) ∧
      writeMutation version m = .ok w ∧ w.length ≤ taken.length ∧
        run (readMutation version) w = .ok m) ∧
    ∃ taken rest w, b' = taken ++ rest ∧ readBatch version b' = .ok ([m], rest) ∧
      writeBatch version [m] = .ok w ∧ w.length ≤ taken.length ∧
        run (readBatch version) w = .ok [m] := by
  intro version b m b'
  have hb : b.length < countLimit := by decide
  have hb' : b'.length < countLimit := by decide
  have hm : run (readMutation version) b = .ok m := by decide +kernel
  have hms : run (readBatch version) b' = .ok [m] := by decide +kernel
  exact ⟨hb, hb', hm, hms, (read_writes_back version b hb).left m hm,
    (read_writes_back version b' hb').right [m] hms⟩

theorem written_part_truncated (version : Int) (p q : Bytes) (hq : q ≠ []) :
    (∀ m : Mutation, m.Bounded → writeMutation version m = .ok (p ++ q) →
      run (readMutation version) p = .error .truncated) ∧
    (∀ batch : List Mutation, batch.length < countLimit → (∀ m ∈ batch, m.Bounded) →
      writeBatch version batch = .ok (p ++ q) →
        run (readBatch version) p = .error .truncated) ∧
    ∀ entries : List (Address × String), entries.length < countLimit →
      writeForwardList entries = .ok (p ++ q) → run readForwardList p = .error .truncated :=
  ⟨fun _ hm h => (spans_readMutation hm h).run_eq_truncated hq,
    fun _ hl hm h => (spans_readBatch hl hm h).run_eq_truncated hq,
    fun _ hl h => (spans_readForwardList hl h).run_eq_truncated hq⟩

-- Cuts within names, numbers, counts, values and addresses.
theorem written_part_truncated_of_every_kind :
    let version := Protocol.current
    let m := Mutation.ofFamilies "ü" [] [("t", [.write ["é", ""] ⟨[0xff, 0], -1⟩,
      .tombstone [] ⟨1, 0⟩, .rangeTombstone ["2"] ⟨0, 1⟩])]
    let batch := [Mutation.empty "ks" [0xc3], m]
    let entries : List (Address × String) :=
      [(.v4 10 0 0 1, "é"), (⟨.replicate 16 0, .inr rfl⟩, "")]
    m.Bounded ∧ batch.length < countLimit ∧ (∀ m ∈ batch, m.Bounded) ∧
      entries.length < countLimit ∧
      (∃ b, writeMutation version m = .ok b ∧ b.length = 76 ∧
        ∀ k < 76, run (readMutation version) (b.take k) = .error .truncated) ∧
      (∃ b, writeBatch version batch = .ok b ∧ b.length = 91 ∧
        ∀ k < 91, run (readBatch version) (b.take k) = .error .truncated) ∧
      ∃ b, writeForwardList entries = .ok b ∧ b.length = 32 ∧
        ∀ k < 32, run readForwardList (b.take k) = .error .truncated := by
  intro version m batch entries
  have hm : m.Bounded := by decide +kernel
  have hb : ∀ m ∈ batch, m.Bounded := by decide +kernel
  have hl : batch.length < countLimit := by decide
  have he : entries.length < countLimit := by decide
  have cuts {α : Type} {x : Except WireError Bytes} {read : Reader α} {n : Nat}
      (hx : x.map List.length = .ok n)
      (ht : ∀ p q, q ≠ [] → x = .ok (p ++ q) → run read p = .error .truncated) :
      ∃ b, x = .ok b ∧ b.length = n ∧ ∀ k < n, run read (b.take k) = .error .truncated := by
    cases x
    case error e => cases hx
    case ok b =>
      cases hx
      refine ⟨b, rfl, rfl, fun k hk => ht _ (b.drop k) ?_ (by rw [List.take_append_drop])⟩
      rw [Ne, List.drop_eq_nil_iff]
      omega
  refine ⟨hm, hl, hb, he, cuts (by decide +kernel) fun p q hq => ?_,
    cuts (by decide +kernel) fun p q hq => ?_, cuts (by decide +kernel) fun p q hq => ?_⟩
  · exact (written_part_truncated version p q hq).left m hm
  · exact (written_part_truncated version p q hq).right.left batch hl hb
  · exact (written_part_truncated version p q hq).right.right entries he

end Wire
end ClusterMetadata
