import ClusterMetadata.Proofs.Text.OptionMap
import Mathlib.Data.List.Basic
import Mathlib.Data.List.Infix

/-!
Writings that end where they end, whatever follows them. Then a sequence of them can be taken apart
from the front (`Delimits.flatMap_eq`). The text of an option map is such a writing
(`delimits_render`), and in texts one after the other the bytes of one reach no further into those
of another than its characters do (`Utf8.isPrefix_of_isPrefix_encode`).
-/

namespace ClusterMetadata

variable {α : Type} {admits : α → Prop} {write : α → Bytes} {as bs : List α} {r r' : Bytes}

-- Two writings with something behind them are alike only when both write the same.
def Delimits (admits : α → Prop) (write : α → Bytes) : Prop :=
  ∀ ⦃a b : α⦄ ⦃r r' : Bytes⦄, admits a → admits b → write a ++ r = write b ++ r' → a = b ∧ r = r'

-- None of the writings stands at the front.
def Stops (admits : α → Prop) (write : α → Bytes) (r : Bytes) : Prop :=
  ∀ a, admits a → ∀ r', r ≠ write a ++ r'

namespace Delimits

-- One sequence goes on where the other stops.
theorem exists_of_flatMap_eq (hw : Delimits admits write) (ha : ∀ a ∈ as, admits a)
    (hb : ∀ b ∈ bs, admits b) (h : as.flatMap write ++ r = bs.flatMap write ++ r') :
    ∃ cs, bs = as ++ cs ∧ r = cs.flatMap write ++ r' ∨
      as = bs ++ cs ∧ r' = cs.flatMap write ++ r := by
  induction as generalizing bs
  case nil => exact ⟨bs, .inl ⟨rfl, h⟩⟩
  case cons a as hi =>
    cases bs
    case nil => exact ⟨a :: as, .inr ⟨rfl, h.symm⟩⟩
    case cons b bs =>
      rw [List.forall_mem_cons] at ha hb
      simp only [List.flatMap_cons, List.append_assoc] at h
      obtain ⟨rfl, ht⟩ := hw ha.left hb.left h
      have ⟨cs, hc⟩ := hi ha.right hb.right ht
      exact ⟨cs, by simpa using hc⟩

theorem flatMap_eq (hw : Delimits admits write) (ha : ∀ a ∈ as, admits a)
    (hb : ∀ b ∈ bs, admits b) (hr : Stops admits write r) (hr' : Stops admits write r')
    (h : as.flatMap write ++ r = bs.flatMap write ++ r') : as = bs ∧ r = r' := by
  have nil_of {cs : List α} {r r' : Bytes} (hs : Stops admits write r)
      (hc : ∀ c ∈ cs, admits c) (h : r = cs.flatMap write ++ r') : cs = [] := by
    cases cs
    case nil => rfl
    case cons c cs =>
      rw [List.flatMap_cons, List.append_assoc] at h
      exact absurd h (hs c (hc c List.mem_cons_self) _)
  obtain ⟨cs, ⟨rfl, he⟩ | ⟨rfl, he⟩⟩ := hw.exists_of_flatMap_eq ha hb h
  case inl =>
    obtain rfl := nil_of hr (fun c hc => hb c (List.mem_append_right _ hc)) he
    exact ⟨(List.append_nil _).symm, he⟩
  case inr =>
    obtain rfl := nil_of hr' (fun c hc => ha c (List.mem_append_right _ hc)) he
    exact ⟨List.append_nil _, he.symm⟩

theorem flatMap_eq_of_length (hw : Delimits admits write) (ha : ∀ a ∈ as, admits a)
    (hb : ∀ b ∈ bs, admits b) (hl : as.length = bs.length)
    (h : as.flatMap write ++ r = bs.flatMap write ++ r') : as = bs ∧ r = r' := by
  obtain ⟨cs, ⟨rfl, rfl⟩ | ⟨rfl, rfl⟩⟩ := hw.exists_of_flatMap_eq ha hb h
  all_goals
    obtain rfl : cs = [] := by simpa using hl
    simp

end Delimits

namespace Utf8

theorem isPrefix_of_isPrefix_encode {s t : String} (h : encode s <+: encode t) :
    s.toList <+: t.toList := by
  have ⟨b, hb⟩ := h
  refine List.isPrefix_of_utf8Encode_append_eq_utf8Encode ⟨b.toArray⟩ ?_
  rw [String.utf8Encode_toList, String.utf8Encode_toList]
  refine ByteArray.ext (Array.toList_inj.mp ?_)
  simpa [encode] using hb

end Utf8

theorem OptionMap.delimits_render :
    Delimits (fun _ => True) fun options => Utf8.encode (render options) := by
  have eq_of {o o' : SortedMap String String} {r r' : Bytes}
      (h : Utf8.encode (render o) ++ r = Utf8.encode (render o') ++ r')
      (hp : Utf8.encode (render o) <+: Utf8.encode (render o')) : o = o' ∧ r = r' := by
    have ⟨rest, hr⟩ := Utf8.isPrefix_of_isPrefix_encode hp
    have hread := readObject_toList_render o rest
    have hread' := readObject_toList_render o' []
    rw [hr, ← List.append_nil (render o').toList, hread'] at hread
    have he : o = o' := by
      have hl : o'.toList = o.toList := (Prod.mk.inj (Option.some.inj hread)).left
      rw [← SortedMap.ofList_toList o, ← hl, SortedMap.ofList_toList]
    exact ⟨he, List.append_cancel_left (he ▸ h)⟩
  intro o o' r r' _ _ h
  cases List.prefix_or_prefix_of_prefix ⟨r, rfl⟩ ⟨r', h.symm⟩
  case inl hp => exact eq_of h hp
  case inr hp =>
    have ⟨ho, hr⟩ := eq_of h.symm hp
    exact ⟨ho.symm, hr.symm⟩

end ClusterMetadata
