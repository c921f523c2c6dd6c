import ClusterMetadata.Proofs.Except
import ClusterMetadata.Proofs.Text.BigEndian
import ClusterMetadata.Wire.Reader

/-!
What a reader takes off the front of a payload. Each field is read from its own writing, to its last
byte and whatever follows, and a part of that writing is found to be cut off; so is a sequence of
fields (`Spans.bind`, `spans_readMany`). Nothing else is read as a field: numbers, texts and byte
strings are taken from what they are written as (`Accepts.bind`).
-/

namespace ClusterMetadata.Wire

-- The reader takes the bytes for the value and leaves what comes after them.
def Reads {α : Type} (read : Reader α) (b : Bytes) (a : α) : Prop :=
  ∀ rest, read (b ++ rest) = .ok (a, rest)

-- The bytes are all that the reader takes for the value, and with fewer of them it fails.
structure Spans {α : Type} (read : Reader α) (b : Bytes) (a : α) : Prop where
  reads : Reads read b a
  stops : ∀ p q, b = p ++ q → q ≠ [] → read p = .error .truncated

section

variable {α β : Type} {read : Reader α} {f : α → Reader β} {b b' : Bytes} {a : α} {a' : β}

theorem run_eq_ok_iff : run read b = .ok a ↔ ∃ rest, read b = .ok (a, rest) := by
  rw [run]
  constructor
  case mp =>
    intro h
    cases hr : read b
    case error e => rw [hr] at h; cases h
    case ok p    => rw [hr] at h; cases h; exact ⟨p.2, rfl⟩
  case mpr =>
    rintro ⟨rest, h⟩
    rw [h]
    rfl

theorem Reads.run_eq (hr : Reads read b a) (rest : Bytes) : run read (b ++ rest) = .ok a :=
  run_eq_ok_iff.mpr ⟨rest, hr rest⟩

theorem Reads.bind (hr : Reads read b a) (hf : Reads (f a) b' a') :
    Reads (read >>= f) (b ++ b') a' := by
  intro rest
  change (read (b ++ b' ++ rest) >>= fun p => f p.1 p.2) = _
  rw [List.append_assoc, hr]
  exact hf rest

namespace Spans

-- Of no bytes none can be missing.
theorem of_nil (hr : Reads read [] a) : Spans read [] a where
  reads := hr
  stops _ _ h hq := absurd (List.append_eq_nil_iff.mp h.symm).right hq

theorem pure (a : α) : Spans (Pure.pure a) [] a :=
  of_nil fun _ => rfl

theorem lift {x : Except WireError α} (h : x = .ok a) : Spans (liftM x) [] a := by
  subst h
  exact of_nil fun _ => rfl

-- The bytes may end within the first part, or behind it and before the end of the second.
theorem bind (hr : Spans read b a) (hf : Spans (f a) b' a') : Spans (read >>= f) (b ++ b') a' where
  reads := hr.reads.bind hf.reads
  stops p q h hq := by
    have behind (c) (hc : b' = c ++ q) : (read >>= f) (b ++ c) = .error .truncated := by
      change (read (b ++ c) >>= fun p => f p.1 p.2) = _
      rw [hr.reads]
      exact hf.stops c q hc hq
    rcases List.append_eq_append_iff.mp h with ⟨c, rfl, hc⟩ | ⟨c, hb, rfl⟩
    case inl => exact behind c hc
    case inr =>
      by_cases hc : c = []
      case pos =>
        subst hc
        have hb : p = b ++ [] := by simpa using hb.symm
        exact hb ▸ behind [] rfl
      case neg =>
        change (read p >>= fun p => f p.1 p.2) = _
        rw [hr.stops p c hb hc]
        rfl

-- A last step that reads nothing.
theorem bind_nil (hr : Spans read b a) (hf : Spans (f a) [] a') : Spans (read >>= f) b a' :=
  List.append_nil b ▸ hr.bind hf

theorem map (hr : Spans read b a) (g : α → β) : Spans (g <$> read) b (g a) := by
  rw [← bind_pure_comp]
  exact hr.bind_nil (.pure (g a))

theorem run_eq (hr : Spans read b a) : run read b = .ok a := by
  have h := hr.reads.run_eq []
  rwa [List.append_nil] at h

theorem run_eq_truncated {p q : Bytes} (hr : Spans read (p ++ q) a) (hq : q ≠ []) :
    run read p = .error .truncated := by
  rw [run, hr.stops p q rfl hq]
  rfl

end Spans

-- Whatever the reader gives, such bytes stood at the front for it.
def Accepts (read : Reader α) (P : Bytes → α → Prop) : Prop :=
  ∀ b a rest, read b = .ok (a, rest) → ∃ taken, b = taken ++ rest ∧ P taken a

namespace Accepts

variable {P P' : Bytes → α → Prop} {Q : Bytes → β → Prop}

theorem mono (hr : Accepts read P) (h : ∀ taken a, P taken a → P' taken a) : Accepts read P' := by
  intro b a rest hb
  have ⟨taken, ht, hp⟩ := hr b a rest hb
  exact ⟨taken, ht, h taken a hp⟩

theorem pure (h : P [] a) : Accepts (Pure.pure a) P := by
  intro b a' rest hb
  cases hb
  exact ⟨[], rfl, h⟩

theorem bind (hr : Accepts read P)
    (hf : ∀ taken a, P taken a → Accepts (f a) fun taken' c => Q (taken ++ taken') c) :
    Accepts (read >>= f) Q := by
  intro b c rest hb
  have ⟨⟨a, b'⟩, ha, hc⟩ := bind_eq_ok_iff.mp hb
  obtain ⟨taken, rfl, hp⟩ := hr b a b' ha
  obtain ⟨taken', rfl, hq⟩ := hf taken a hp b' c rest hc
  exact ⟨taken ++ taken', (List.append_assoc ..).symm, hq⟩

-- A step that reads nothing.
theorem bind_lift {x : Except WireError α} (hf : ∀ a, x = .ok a → Accepts (f a) Q) :
    Accepts (liftM x >>= f) Q := by
  cases x
  case error e => exact fun _ _ _ => nofun
  case ok a    => exact hf a rfl

end Accepts

end

variable {n k : Nat} {b : Bytes} {what : String}

@[simp]
theorem length_writeInt64 (n : Int64) : (writeInt64 n).length = 8 := BigEndian.length_encode ..

@[simp]
theorem length_writeInt32 (n : Int32) : (writeInt32 n).length = 4 := BigEndian.length_encode ..

@[simp]
theorem length_writeCount (n : Nat) : (writeCount n).length = 4 := BigEndian.length_encode ..

theorem spans_readByte (c : UInt8) : Spans readByte [c] c where
  reads _ := rfl
  stops p q h hq := by
    cases p
    case nil => rfl
    case cons =>
      have h := (List.cons.inj h).right
      exact absurd (List.append_eq_nil_iff.mp h.symm).right hq

theorem spans_take (b : Bytes) : Spans (take b.length) b b where
  reads rest := by simp [take]
  stops p q h hq := by
    have hl : p.length < b.length := by
      rw [h, List.length_append]
      exact Nat.lt_add_of_pos_right (List.length_pos_iff.mpr hq)
    rw [take, if_neg]
    rw [List.take_of_length_le (Nat.le_of_lt hl)]
    exact Nat.ne_of_lt hl

theorem accepts_readByte : Accepts readByte fun taken c => taken = [c] := by
  intro b c rest h
  cases b
  case nil  => cases h
  case cons => cases h; exact ⟨[c], rfl, rfl⟩

theorem accepts_take (n : Nat) : Accepts (take n) fun taken b => taken = b ∧ b.length = n := by
  intro b a rest h
  rw [take] at h
  split at h
  case isTrue hl =>
    cases h
    exact ⟨_, (List.take_append_drop n b).symm, rfl, hl⟩
  case isFalse => cases h

theorem spans_readNat (h : n < 256 ^ k) : Spans (readNat k) (BigEndian.encode k n) n := by
  have hr := (spans_take (BigEndian.encode k n)).map BigEndian.decode
  rwa [BigEndian.length_encode, BigEndian.decode_encode, Nat.mod_eq_of_lt h] at hr

theorem accepts_readNat (k : Nat) :
    Accepts (readNat k) fun taken n => n < 256 ^ k ∧ taken = BigEndian.encode k n := by
  rw [readNat, ← bind_pure_comp]
  refine (accepts_take k).bind fun taken b h => .pure ?_
  obtain ⟨rfl, rfl⟩ := h
  rw [List.append_nil, BigEndian.encode_decode]
  exact ⟨BigEndian.decode_lt taken, rfl⟩

theorem spans_readInt64 (n : Int64) : Spans readInt64 (writeInt64 n) n := by
  have hr : Spans (readNat 8) (writeInt64 n) n.toUInt64.toNat := spans_readNat n.toUInt64.toNat_lt
  have hn : Spans readInt64 (writeInt64 n) _ := hr.bind_nil (.pure _)
  simpa using hn

theorem accepts_readInt64 : Accepts readInt64 fun taken n => taken = writeInt64 n := by
  refine (accepts_readNat 8).bind fun taken k h => .pure ?_
  have hk : k % 2 ^ 64 = k := Nat.mod_eq_of_lt h.left
  rw [writeInt64, List.append_nil, h.right, UInt64.toUInt64_toInt64, UInt64.toNat_ofNat', hk]

theorem spans_readInt32 (n : Int32) : Spans readInt32 (writeInt32 n) n := by
  have hr : Spans (readNat 4) (writeInt32 n) n.toUInt32.toNat := spans_readNat n.toUInt32.toNat_lt
  have hn : Spans readInt32 (writeInt32 n) _ := hr.bind_nil (.pure _)
  simpa using hn

theorem accepts_readInt32 : Accepts readInt32 fun taken n => taken = writeInt32 n := by
  refine (accepts_readNat 4).bind fun taken k h => .pure ?_
  have hk : k % 2 ^ 32 = k := Nat.mod_eq_of_lt h.left
  rw [writeInt32, List.append_nil, h.right, UInt32.toUInt32_toInt32, UInt32.toNat_ofNat', hk]

theorem spans_readCount (h : n < countLimit) : Spans (readCount what) (writeCount n) n := by
  have hr : Spans (readNat 4) (writeCount n) n := spans_readNat (Nat.lt_trans h (by decide))
  refine hr.bind_nil ?_
  rw [if_pos h]
  exact .pure n

theorem accepts_readCount :
    Accepts (readCount what) fun taken n => n < countLimit ∧ taken = writeCount n := by
  refine (accepts_readNat 4).bind fun taken n h => ?_
  split
  case isTrue hl => exact .pure ⟨hl, by rw [List.append_nil, h.right, writeCount]⟩
  case isFalse   => exact fun _ _ _ => nofun

theorem writeShort_eq_ok {v : Bytes} (h : writeShort what v = .ok b) :
    v.length < shortLimit ∧ b = BigEndian.encode 2 v.length ++ v := by
  simp only [writeShort] at h
  split at h
  case isTrue hl => cases h; exact ⟨hl, rfl⟩
  case isFalse   => cases h

theorem isOk_writeShort : (writeShort what b).isOk = true ↔ b.length < shortLimit := by
  unfold writeShort
  split
  case isTrue h  => simp [h, Except.isOk, Except.toBool]
  case isFalse h => simp [h, Except.isOk, Except.toBool]

theorem spans_readShort {v : Bytes} (h : writeShort what v = .ok b) : Spans readShort b v := by
  obtain ⟨hl, rfl⟩ := writeShort_eq_ok h
  exact (spans_readNat hl).bind (spans_take v)

theorem accepts_readShort (what : String) :
    Accepts readShort fun taken v => writeShort what v = .ok taken := by
  refine (accepts_readNat 2).bind fun taken n h => (accepts_take n).mono fun taken' v h' => ?_
  obtain ⟨hl, rfl⟩ := h
  obtain ⟨rfl, rfl⟩ := h'
  exact if_pos hl

theorem spans_asText (s : String) : Spans (asText (Utf8.encode s)) [] s := by
  rw [asText, Utf8.decode?_encode]
  exact .pure s

theorem accepts_asText (v : Bytes) :
    Accepts (asText v) fun taken s => taken = [] ∧ v = Utf8.encode s := by
  rw [asText]
  split
  case h_1 s hs => exact .pure ⟨rfl, (Utf8.encode_of_decode? hs).symm⟩
  case h_2      => exact fun _ _ _ => nofun

theorem isOk_writeText {s : String} :
    (writeText s).isOk = true ↔ (Utf8.encode s).length < shortLimit :=
  isOk_writeShort

theorem spans_readText {s : String} (h : writeText s = .ok b) : Spans readText b s :=
  (spans_readShort h).bind_nil (spans_asText s)

theorem accepts_readText : Accepts readText fun taken s => writeText s = .ok taken := by
  refine (accepts_readShort "string").bind fun taken v h => (accepts_asText v).mono ?_
  rintro taken' s ⟨rfl, rfl⟩
  rwa [List.append_nil]

section

variable {α : Type} {write : α → Except WireError Bytes} {read : Reader α} {a : α} {as : List α}

theorem writeAll_cons_eq_ok (h : writeAll write (a :: as) = .ok b) :
    ∃ b₁ b₂, write a = .ok b₁ ∧ writeAll write as = .ok b₂ ∧ b = b₁ ++ b₂ := by
  have ⟨b₁, h₁, h⟩ := bind_eq_ok_iff.mp h
  have ⟨b₂, h₂, h⟩ := bind_eq_ok_iff.mp h
  exact ⟨b₁, b₂, h₁, h₂, (Except.ok.inj h).symm⟩

theorem isOk_writeAll : (writeAll write as).isOk = true ↔ ∀ a ∈ as, (write a).isOk = true := by
  induction as
  case nil => simp [writeAll, Except.isOk, Except.toBool]
  case cons a as hi =>
    rw [writeAll, isOk_bind fun _ _ => isOk_map, hi, List.forall_mem_cons]

theorem spans_readMany (hr : ∀ a ∈ as, ∀ b, write a = .ok b → Spans read b a)
    (h : writeAll write as = .ok b) : Spans (readMany read as.length) b as := by
  induction as generalizing b
  case nil => cases h; exact .pure []
  case cons a as hi =>
    obtain ⟨b₁, b₂, h₁, h₂, rfl⟩ := writeAll_cons_eq_ok h
    have ⟨hra, hras⟩ := List.forall_mem_cons.mp hr
    exact (hra b₁ h₁).bind ((hi hras h₂).bind_nil (.pure _))

-- What holds of the bytes of each item for it holds of all the bytes for the list.
theorem accepts_readMany {P : Bytes → α → Prop} {Q : Bytes → List α → Prop} (hr : Accepts read P)
    (nil : Q [] [])
    (cons : ∀ {taken taken' a as}, P taken a → Q taken' as → Q (taken ++ taken') (a :: as))
    (n : Nat) : Accepts (readMany read n) fun taken as => as.length = n ∧ Q taken as := by
  induction n
  case zero => exact .pure ⟨rfl, nil⟩
  case succ n hi =>
    refine hr.bind fun taken a ha => hi.bind fun taken' as has => .pure ?_
    rw [List.append_nil]
    exact ⟨congrArg (· + 1) has.left, cons ha has.right⟩

end

end ClusterMetadata.Wire
