import ClusterMetadata.Proofs.SortedMap
import ClusterMetadata.Text.OptionMap
import Mathlib.Tactic.IntervalCases

/-!
A map of texts reads back from its own rendering (`parse?_render`).
-/

namespace ClusterMetadata

namespace Hex

@[simp]
theorem value?_digit {n : Nat} (h : n < 16) : value? (digit n) = some n := by
  interval_cases n <;> rfl

end Hex

namespace OptionMap

variable {c : Char} {cs rest s : List Char} {fuel : Nat}

theorem readUnit_ofByte {n : Nat} (h : n < 0x20) :
    readUnit ('0' :: '0' :: (Hex.ofByte (UInt8.ofNat n) ++ cs)) = some (n, cs) := by
  have hn : (UInt8.ofNat n).toNat = n := by simp; omega
  have hz : Hex.value? '0' = some 0 := rfl
  simp [Hex.ofByte, readUnit, hn, hz, Hex.value?_digit (show n / 16 < 16 by omega),
    Hex.value?_digit (show n % 16 < 16 by omega)]
  omega

theorem readUnicode_ofByte (h : c.toNat < 0x20) :
    readUnicode ('0' :: '0' :: (Hex.ofByte (UInt8.ofNat c.toNat) ++ cs)) = some (c, cs) := by
  have hh : isHighSurrogate c.toNat = false := by simp [isHighSurrogate]; omega
  have hl : isLowSurrogate c.toNat = false := by simp [isLowSurrogate]; omega
  simp [readUnicode, readUnit_ofByte h, hh, hl]

theorem escape_ne_nil : escape c ≠ [] := by
  simp only [escape]
  repeat' split
  all_goals simp

theorem readString_backslash {cs' : List Char} (h : readEscape cs' = some (c, cs)) :
    readString (fuel + 1) ('\\' :: cs') =
      (readString fuel cs).map fun (s, rest) => (c :: s, rest) := by
  simp only [readString, h, Option.bind_eq_bind, Option.bind_some]
  cases readString fuel cs <;> rfl

theorem readString_plain (hq : c ≠ '"') (hb : c ≠ '\\') (hc : ¬c.toNat < 0x20) :
    readString (fuel + 1) (c :: cs) = (readString fuel cs).map fun (s, rest) => (c :: s, rest) := by
  rw [readString, if_neg hc]
  · cases readString fuel cs <;> rfl
  · exact hq
  · exact hb

theorem readString_escape :
    readString (fuel + 1) (escape c ++ cs) =
      (readString fuel cs).map fun (s, rest) => (c :: s, rest) := by
  simp only [escape]
  iterate 7
    split
    case isTrue h => subst h; exact readString_backslash rfl
  split
  case isTrue h  => exact readString_backslash (readUnicode_ofByte h)
  case isFalse h => exact readString_plain ‹_› ‹_› h

theorem readString_flatMap_escape (h : s.length ≤ fuel) :
    readString fuel (s.flatMap escape ++ '"' :: rest) = some (s, rest) := by
  induction s generalizing fuel
  case nil => cases fuel <;> rfl
  case cons c s hi =>
    obtain ⟨fuel, rfl⟩ := Nat.exists_eq_add_of_le' (Nat.le_of_add_left_le h)
    rw [List.flatMap_cons, List.append_assoc, readString_escape, hi (by simpa using h)]
    rfl

theorem expect_cons (h : isBlank c = false) : expect c (c :: cs) = some cs := by
  simp [expect, skipBlanks, h]

theorem length_le_length_flatMap_escape (s : List Char) : s.length ≤ (s.flatMap escape).length := by
  induction s
  case nil => simp
  case cons c s hi =>
    have hp : 0 < (escape c).length := List.length_pos_iff.mpr escape_ne_nil
    rw [List.flatMap_cons, List.length_append, List.length_cons]
    omega

theorem readQuoted_renderString (s : String) :
    readQuoted (renderString s ++ rest) = some (s, rest) := by
  have hl : s.toList.length ≤ (s.toList.flatMap escape ++ '"' :: rest).length := by
    have hs := length_le_length_flatMap_escape s.toList
    rw [List.length_append]
    omega
  have hr : renderString s ++ rest = '"' :: (s.toList.flatMap escape ++ '"' :: rest) := by
    simp [renderString]
  rw [hr, readQuoted, expect_cons rfl]
  simp only [Option.bind_eq_bind, Option.bind_some, readString_flatMap_escape hl]
  exact congrArg some (Prod.ext String.ofList_toList rfl)

theorem readMembers_last (m : String × String) :
    readMembers (fuel + 1) (renderMember m ++ '\x7d' :: rest) = some ([m], rest) := by
  have hc : isBlank ':' = false := rfl
  have hb : skipBlanks ('\x7d' :: rest) = '\x7d' :: rest := rfl
  simp [readMembers, renderMember, readQuoted_renderString, expect_cons hc, hb]

theorem readMembers_next (m : String × String) :
    readMembers (fuel + 1) (renderMember m ++ ',' :: cs) =
      (readMembers fuel cs).map fun (ms, rest) => (m :: ms, rest) := by
  have hc : isBlank ':' = false := rfl
  have hb : skipBlanks (',' :: cs) = ',' :: cs := rfl
  simp [readMembers, renderMember, readQuoted_renderString, expect_cons hc, hb]
  cases readMembers fuel cs <;> rfl

-- The members up to the closing brace.
theorem readMembers_intercalate (m : String × String) {ms : List (String × String)}
    (rest : List Char) (h : ms.length < fuel) :
    readMembers fuel ([','].intercalate ((m :: ms).map renderMember) ++ '\x7d' :: rest) =
      some (m :: ms, rest) := by
  obtain ⟨fuel, rfl⟩ := Nat.exists_eq_add_one.mpr (Nat.zero_lt_of_lt h)
  induction ms generalizing m fuel
  case nil => simpa using readMembers_last m
  case cons m' ms hi =>
    have hf : ms.length < fuel := by simpa using h
    obtain ⟨fuel, rfl⟩ := Nat.exists_eq_add_one.mpr (Nat.zero_lt_of_lt hf)
    rw [List.map_cons, List.map_cons, List.intercalate_cons_cons]
    simp only [List.append_assoc, List.cons_append, List.nil_append]
    rw [readMembers_next, ← List.map_cons, hi m' fuel hf]
    rfl

-- Each member takes at least its quotes.
theorem length_lt_length_intercalate (m : String × String) (ms : List (String × String)) :
    ms.length < ([','].intercalate ((m :: ms).map renderMember)).length := by
  induction ms generalizing m
  case nil => simp [renderMember, renderString]
  case cons m' ms hi =>
    rw [List.map_cons, List.map_cons, List.intercalate_cons_cons, ← List.map_cons]
    have hm := hi m'
    simp only [List.length_append, List.length_cons, List.length_nil]
    omega

theorem readObject_render (ms : List (String × String)) :
    readObject ('\x7b' :: [','].intercalate (ms.map renderMember) ++ '\x7d' :: rest) =
      some (ms, rest) := by
  rw [List.cons_append, readObject, expect_cons rfl]
  simp only [Option.bind_eq_bind, Option.bind_some]
  cases ms
  case nil => rfl
  case cons m ms =>
    generalize hc : [','].intercalate ((m :: ms).map renderMember) ++ '\x7d' :: rest = cs
    have hl : ms.length < cs.length := by
      have := length_lt_length_intercalate m ms
      rw [← hc, List.length_append]
      omega
    have ⟨cs', hq⟩ : ∃ cs', cs = '"' :: cs' := by
      rw [← hc]
      cases ms <;> exact ⟨_, rfl⟩
    have hb : skipBlanks cs = cs := by rw [hq]; rfl
    have hr := readMembers_intercalate m rest hl
    rw [hc] at hr
    rw [hb]
    split
    case h_1 => cases hq
    case h_2 => exact hr

-- A map reads back from its text, whatever follows.
theorem readObject_toList_render (options : SortedMap String String) (rest : List Char) :
    readObject ((render options).toList ++ rest) = some (options.toList, rest) := by
  simp only [render, String.toList_ofList, List.append_assoc, List.cons_append, List.nil_append]
  exact readObject_render options.toList

theorem parse?_render (options : SortedMap String String) :
    parse? (render options) = some options := by
  have hr := readObject_toList_render options []
  rw [List.append_nil] at hr
  simp only [parse?, hr, Option.bind_eq_bind, Option.bind_some]
  exact congrArg some (SortedMap.ofList_toList options)

end OptionMap
end ClusterMetadata
