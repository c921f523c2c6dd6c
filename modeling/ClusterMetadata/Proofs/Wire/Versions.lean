import ClusterMetadata.Proofs.Wire.Payload

/-!
What the versions of the protocol have to do with each other. Nothing depends on them but whether
range tombstones of parts of a partition are carried: of two versions the older one reads what the
newer one reads, and refuses for its version, whatever else it may find in the payload, what it does
not carry (`versions_gate_ranges`). A mutation that both can write is written alike.
-/

namespace ClusterMetadata

-- A range tombstone that is not of a whole partition.
def Mutation.HoldsRange (m : Mutation) : Prop :=
  ∃ f ∈ m.families.toList, ∃ path d, path ≠ [] ∧ .rangeTombstone path d ∈ f.2

theorem Mutation.carriedBy_iff {m : Mutation} {version : Int} :
    m.CarriedBy version ↔ ¬(version < Protocol.rangeTombstones ∧ m.HoldsRange) := by
  rw [not_and_or, Int.not_lt]
  constructor
  case mp =>
    rw [or_iff_not_imp_right, not_not]
    rintro h ⟨f, hf, path, d, hp, hm⟩
    exact (h f hf _ hm).resolve_left hp
  case mpr =>
    intro h f hf mod hm
    cases mod
    case write          => trivial
    case tombstone      => trivial
    case rangeTombstone path d =>
      refine h.symm.imp_left fun h => ?_
      by_contra hp
      exact h ⟨f, hf, path, d, hp, hm⟩

-- Putting tables together leaves none of their modifications out.
theorem Mutation.forall_mem_ofFamilies_iff {keyspace : String} {key : Bytes}
    {families : List (String × List Modification)} {p : Modification → Prop} :
    (∀ f ∈ (ofFamilies keyspace key families).families.toList, ∀ mod ∈ f.2, p mod) ↔
      ∀ f ∈ families, ∀ mod ∈ f.2, p mod := by
  constructor
  case mp =>
    intro h f hf mod hm
    have hon : mod ∈ (ofFamilies keyspace key families).on ⟨keyspace, f.1, key⟩ :=
      mem_on_ofFamilies.mpr ⟨rfl, rfl, f.2, hf, hm⟩
    have ⟨_, _, mods, hg, hm⟩ := mem_on.mp hon
    exact h (f.1, mods) (Std.ExtTreeMap.mem_toList_iff_getElem?_eq_some.mpr hg) mod hm
  case mpr =>
    intro h
    refine forall_mem_extendAll (p := fun f => ∀ mod ∈ f.2, p mod) ?_ (by simp [empty]) h
    exact fun h h' => List.forall_mem_append.mpr ⟨h, h'⟩

namespace Wire

-- What the first reader gives the second gives too, and of what the second gives the first refuses
-- with the error what is not let through.
structure Gates {α : Type} (first second : Reader α) (e : WireError) (through : α → Prop) :
    Prop where
  agrees  : ∀ {b r}, first b = .ok r → second b = .ok r
  passes  : ∀ {b r}, second b = .ok r → through r.1 → first b = .ok r
  refuses : ∀ {b r}, second b = .ok r → ¬through r.1 → first b = .error e

namespace Gates

variable {α β : Type} {first second read : Reader α} {f g : α → Reader β} {e : WireError}
  {through : α → Prop} {through' : β → Prop}

theorem refl (read : Reader α) : Gates read read e fun _ => True where
  agrees h      := h
  passes h _    := h
  refuses _ h   := absurd trivial h

theorem pure {a : α} (ha : through a) : Gates (Pure.pure a) (Pure.pure a) e through where
  agrees h      := h
  passes h _    := h
  refuses h hn  := by cases h; exact absurd ha hn

-- What is refused early is nothing that would be let through later.
theorem bind (hr : Gates first second e through)
    (hf : ∀ a, through a → Gates (f a) (g a) e through')
    (hn : ∀ a b r, ¬through a → g a b = .ok r → ¬through' r.1) :
    Gates (first >>= f) (second >>= g) e through' where
  agrees {b r} h := by
    have ⟨⟨a, b'⟩, ha, h⟩ := bind_eq_ok_iff.mp h
    refine bind_eq_ok_iff.mpr ⟨(a, b'), hr.agrees ha, ?_⟩
    by_cases ht : through a
    case pos => exact (hf a ht).agrees h
    case neg =>
      have he := hr.refuses (hr.agrees ha) ht
      rw [ha] at he
      cases he
  passes {b r} h ht := by
    have ⟨⟨a, b'⟩, ha, h⟩ := bind_eq_ok_iff.mp h
    have hta : through a := by_contra fun hta => hn a b' r hta h ht
    exact bind_eq_ok_iff.mpr ⟨(a, b'), hr.passes ha hta, (hf a hta).passes h ht⟩
  refuses {b r} h ht := by
    have ⟨⟨a, b'⟩, ha, h⟩ := bind_eq_ok_iff.mp h
    refine bind_eq_error_iff.mpr ?_
    by_cases hta : through a
    case pos => exact .inr ⟨(a, b'), hr.passes ha hta, (hf a hta).refuses h ht⟩
    case neg => exact .inl (hr.refuses ha hta)

-- A part that both read alike.
theorem of_bind (hf : ∀ a, Gates (f a) (g a) e through') :
    Gates (read >>= f) (read >>= g) e through' :=
  (refl read).bind (fun a _ => hf a) fun _ _ _ h _ => absurd trivial h

theorem map {h : α → β} (hr : Gates first second e through) (hg : ∀ a, through' (h a) ↔ through a) :
    Gates (do return h (← first)) (do return h (← second)) e through' := by
  refine hr.bind (fun a ha => .pure ((hg a).mpr ha)) ?_
  rintro a b r ha ⟨⟩
  exact (hg a).not.mpr ha

theorem many (hr : Gates first second e through) (n : Nat) :
    Gates (readMany first n) (readMany second n) e fun as => ∀ a ∈ as, through a := by
  induction n
  case zero => exact .pure (by simp)
  case succ n hi =>
    refine hr.bind (fun a ha => hi.map fun as => ?_) ?_
    · rw [List.forall_mem_cons, and_iff_right ha]
    · intro a b r ha h hall
      have ⟨⟨as, _⟩, _, h⟩ := bind_eq_ok_iff.mp h
      cases h
      exact ha (List.forall_mem_cons.mp hall).left

end Gates

variable {v w : Int} {path : CellName} {mod : Modification} {m : Mutation}

def rangeRefused (version : Int) : WireError :=
  .unsupported "range tombstone" Protocol.rangeTombstones version

theorem gates_checkRange (h : v ≤ w) :
    Gates (liftM (checkRange path v)) (liftM (checkRange path w)) (rangeRefused v)
      fun _ => path = [] ∨ Protocol.rangeTombstones ≤ v := by
  by_cases hp : path = [] ∨ Protocol.rangeTombstones ≤ v
  case pos =>
    rw [checkRange_eq_ok_iff.mpr hp, checkRange_eq_ok_iff.mpr (hp.imp_right h.trans')]
    exact .pure hp
  case neg =>
    have hv : checkRange path v = .error (rangeRefused v) := if_pos (by simpa using hp)
    rw [hv]
    exact ⟨nofun, fun _ h => absurd h hp, fun _ _ => rfl⟩

theorem gates_readModification (h : v ≤ w) :
    Gates (readModification v) (readModification w) (rangeRefused v) (Modification.CarriedBy v) := by
  refine .of_bind fun tag => .of_bind fun b => .of_bind fun name => ?_
  split
  case isTrue => exact .of_bind fun _ => .of_bind fun _ => .of_bind fun _ => .pure trivial
  split
  case isTrue => exact .of_bind fun _ => .pure trivial
  split
  case isTrue =>
    refine (gates_checkRange h).bind (fun _ hc => .of_bind fun _ => .pure hc) ?_
    intro _ b r hc hr
    have ⟨_, _, hr⟩ := bind_eq_ok_iff.mp hr
    cases hr
    exact hc
  case isFalse => exact ⟨id, fun h _ => h, nofun⟩

theorem gates_readFamily (h : v ≤ w) :
    Gates (readFamily v) (readFamily w) (rangeRefused v) fun f => ∀ mod ∈ f.2, mod.CarriedBy v :=
  .of_bind fun _ => .of_bind fun n => ((gates_readModification h).many n).map fun _ => .rfl

theorem gates_readMutation (h : v ≤ w) :
    Gates (readMutation v) (readMutation w) (rangeRefused v) (Mutation.CarriedBy v) :=
  .of_bind fun _ => .of_bind fun _ => .of_bind fun n =>
    ((gates_readFamily h).many n).map fun _ => Mutation.forall_mem_ofFamilies_iff

-- Writing does not look at the version for anything else.

theorem writeAll_congr {α : Type} {write write' : α → Except WireError Bytes} {as : List α}
    (h : ∀ a ∈ as, write a = write' a) : writeAll write as = writeAll write' as := by
  induction as
  case nil => rfl
  case cons a as hi =>
    obtain ⟨ha, has⟩ := List.forall_mem_cons.mp h
    rw [writeAll, writeAll, ha, hi has]

theorem writeModification_eq (hv : mod.CarriedBy v) (hw : mod.CarriedBy w) :
    writeModification v mod = writeModification w mod := by
  cases mod
  case write          => rfl
  case tombstone      => rfl
  case rangeTombstone =>
    rw [writeModification, writeModification, checkRange_eq_ok_iff.mpr hv,
      checkRange_eq_ok_iff.mpr hw]

theorem writeMutation_eq (hv : m.CarriedBy v) (hw : m.CarriedBy w) :
    writeMutation v m = writeMutation w m := by
  have families : writeAll (writeFamily v) m.families.toList =
      writeAll (writeFamily w) m.families.toList := by
    refine writeAll_congr fun f hf => ?_
    rw [writeFamily, writeFamily, writeAll_congr fun mod hm => writeModification_eq (hv f hf mod hm)
      (hw f hf mod hm)]
  rw [writeMutation, writeMutation, families]

theorem carriedBy_of_writeMutation {b : Bytes} (h : writeMutation v m = .ok b) : m.CarriedBy v :=
  (isOk_writeMutation.mp (isOk_iff.mpr ⟨b, h⟩)).right

theorem versions_gate_ranges (h : v ≤ w) :
    (∀ b m, run (readMutation v) b = .ok m → run (readMutation w) b = .ok m) ∧
    (∀ b m, run (readMutation w) b = .ok m →
      (¬(v < Protocol.rangeTombstones ∧ m.HoldsRange) → run (readMutation v) b = .ok m) ∧
      (v < Protocol.rangeTombstones → m.HoldsRange → run (readMutation v) b =
        .error (.unsupported "range tombstone" Protocol.rangeTombstones v))) ∧
    ∀ m b b', writeMutation v m = .ok b → writeMutation w m = .ok b' → b = b' := by
  refine ⟨fun b m hr => ?_, fun b m hr => ⟨fun hn => ?_, fun hv hm => ?_⟩, fun m b b' hb hb' => ?_⟩
  · exact run_eq_ok_iff.mpr ((run_eq_ok_iff.mp hr).imp fun _ => (gates_readMutation h).agrees)
  · have ⟨rest, hr⟩ := run_eq_ok_iff.mp hr
    exact run_eq_ok_iff.mpr ⟨rest, (gates_readMutation h).passes hr (Mutation.carriedBy_iff.mpr hn)⟩
  · have ⟨rest, hr⟩ := run_eq_ok_iff.mp hr
    have hn : ¬m.CarriedBy v := fun hc => Mutation.carriedBy_iff.mp hc ⟨hv, hm⟩
    rw [run, (gates_readMutation h).refuses hr hn]
    rfl
  · rw [writeMutation_eq (carriedBy_of_writeMutation hb) (carriedBy_of_writeMutation hb'), hb'] at hb
    exact (Except.ok.inj hb).symm

-- A part of a partition is deleted in one payload, a whole one in the other.
theorem versions_gate_ranges_of_both_kinds :
    let old : Int := 5
    let new : Int := 6
    let part := [0, 1, 0x6b, 0, 0, 0, 0, 0, 1, 0, 1, 0x74, 0, 0, 0, 1, 2, 0, 4, 0, 1, 0x61, 0,
      0, 0, 0, 0, 0, 0, 0, 5, 0, 0, 0, 9]
    let whole := [0, 1, 0x6b, 0, 0, 0, 0, 0, 1, 0, 1, 0x74, 0, 0, 0, 1, 2, 0, 0,
      0, 0, 0, 0, 0, 0, 0, 5, 0, 0, 0, 9]
    let m (path : CellName) := Mutation.ofFamilies "k" [] [("t", [.rangeTombstone path ⟨5, 9⟩])]
    old ≤ new ∧
    run (readMutation new) part = .ok (m ["a"]) ∧ old < Protocol.rangeTombstones ∧
      (m ["a"]).HoldsRange ∧ run (readMutation old) part = .error (rangeRefused old) ∧
    run (readMutation old) whole = .ok (m []) ∧ run (readMutation new) whole = .ok (m []) ∧
    ∃ b b', writeMutation old (m []) = .ok b ∧ writeMutation new (m []) = .ok b' ∧ b = b' := by
  intro old new part whole m
  have hvs : old ≤ new := by decide
  have hp : run (readMutation new) part = .ok (m ["a"]) := by decide +kernel
  have hv : old < Protocol.rangeTombstones := by decide
  have hm : (m ["a"]).HoldsRange := by
    refine ⟨("t", [.rangeTombstone ["a"] ⟨5, 9⟩]), ?_, ["a"], ⟨5, 9⟩, by decide, by decide⟩
    rw [Mutation.toList_families_singleton]
    exact List.mem_singleton_self _
  have hw : run (readMutation old) whole = .ok (m []) := by decide +kernel
  have ⟨b, hb⟩ := isOk_iff.mp (show (writeMutation old (m [])).isOk = true by decide +kernel)
  have ⟨b', hb'⟩ := isOk_iff.mp (show (writeMutation new (m [])).isOk = true by decide +kernel)
  have ⟨reads, gates, writes⟩ := versions_gate_ranges hvs
  exact ⟨hvs, hp, hv, hm, (gates part _ hp).right hv hm, hw, reads whole _ hw, b, b', hb, hb',
    writes (m []) b b' hb hb'⟩

end Wire
end ClusterMetadata
