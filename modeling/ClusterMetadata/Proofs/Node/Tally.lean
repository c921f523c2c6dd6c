import ClusterMetadata.Node.Metrics
import ClusterMetadata.Proofs.SortedMap

/-!
The counters of dropped messages. Each verb has a counter of its own, whatever the namespace
(`qualify_droppedName_inj`), and what they count adds up until it does not fit any more
(`Tallies.trans`).
-/

namespace ClusterMetadata.Metrics

variable {m m₁ m₂ : Metrics} {a b verb : Verb} {tally tally' : Verb → Nat}

-- One such name is no end of another: the namespace, which may be the beginning of one and not of
-- the other, cannot make them meet.
theorem eq_of_droppedName_suffix (h : (droppedName b).toList <:+ (droppedName a).toList) :
    a = b := by
  cases a <;> cases b <;> first | rfl | exact absurd h (by decide +kernel)

theorem qualify_droppedName_inj :
    m.qualify (droppedName a) = m.qualify (droppedName b) ↔ a = b := by
  constructor
  case mpr =>
    rintro rfl
    rfl
  case mp =>
    intro h
    have h := congrArg String.toList h
    rw [qualify, qualify] at h
    split at h <;> split at h
    case isTrue.isTrue   => exact eq_of_droppedName_suffix (h ▸ List.suffix_rfl)
    case isTrue.isFalse  => exact eq_of_droppedName_suffix ⟨_, by simpa using h.symm⟩
    case isFalse.isTrue  => exact (eq_of_droppedName_suffix ⟨_, by simpa using h⟩).symm
    case isFalse.isFalse => exact eq_of_droppedName_suffix ⟨[], by simpa using h.symm⟩

-- What a counter can hold.
def greatest : Nat := UInt64.size - 1

theorem toNat_saturatingAdd (x y : UInt64) :
    (saturatingAdd x y).toNat = min (x.toNat + y.toNat) greatest := by
  have hx := x.toNat_lt_size
  have hy := y.toNat_lt_size
  have hm : (UInt64.ofNat (UInt64.size - 1)).toNat = greatest := rfl
  have hs : (UInt64.ofNat (UInt64.size - 1) - y).toNat = greatest - y.toNat :=
    UInt64.toNat_sub_of_le _ _ (UInt64.le_iff_toNat_le.mpr (by rw [hm, greatest]; omega))
  rw [saturatingAdd]
  split
  case isTrue h =>
    rw [UInt64.le_iff_toNat_le, hs] at h
    rw [UInt64.toNat_add]
    simp only [greatest, UInt64.size] at *
    omega
  case isFalse h =>
    rw [UInt64.le_iff_toNat_le, hs] at h
    rw [hm]
    omega

-- So many messages of each verb have been dropped, and nothing else has been counted.
structure Tallies (m m' : Metrics) (tally : Verb → Nat) : Prop where
  dropped verb : (m'.dropped verb).toNat = min ((m.dropped verb).toNat + tally verb) greatest
  others key   : (∀ verb, key ≠ m.qualify (droppedName verb)) →
    m'.counters[key]? = m.counters[key]?
  gauges       : m'.gauges = m.gauges
  path         : m'.namespacePath = m.namespacePath

theorem qualify_eq (h : m₁.namespacePath = m.namespacePath) : m₁.qualify = m.qualify := by
  funext name
  rw [qualify, qualify, h]

theorem toNat_le_greatest (x : UInt64) : x.toNat ≤ greatest := Nat.le_pred_of_lt x.toNat_lt_size

theorem tallies_zero : m.Tallies m fun _ => 0 where
  dropped _  := (Nat.min_eq_left (toNat_le_greatest _)).symm
  others _ _ := rfl
  gauges     := rfl
  path       := rfl

-- A counter that has come to its end stays there, so that it makes no difference when it does.
theorem Tallies.trans (h : m.Tallies m₁ tally) (h₁ : m₁.Tallies m₂ tally') :
    m.Tallies m₂ fun verb => tally verb + tally' verb where
  dropped verb := by
    rw [h₁.dropped, h.dropped]
    omega
  others key hk :=
    (h₁.others key (qualify_eq h.path ▸ hk)).trans (h.others key hk)
  gauges := h₁.gauges.trans h.gauges
  path   := h₁.path.trans h.path

theorem getElem?_counters_countDropped (m : Metrics) (verb : Verb) (key : String) :
    (m.countDropped verb).counters[key]? =
      if m.qualify (droppedName verb) = key then some (saturatingAdd (m.dropped verb) 1)
      else m.counters[key]? := by
  change (m.counters.insert _ _)[key]? = _
  simp only [Std.ExtTreeMap.getElem?_insert, Std.LawfulEqOrd.compare_eq_iff_eq]
  rfl

theorem tallies_countDropped (m : Metrics) (verb : Verb) :
    m.Tallies (m.countDropped verb) fun v => if verb = v then 1 else 0 where
  dropped v := by
    change ((m.countDropped verb).counters[m.qualify (droppedName v)]?.getD 0).toNat = _
    rw [getElem?_counters_countDropped]
    simp only [qualify_droppedName_inj]
    split
    case isTrue h =>
      subst h
      exact toNat_saturatingAdd _ 1
    case isFalse => exact (Nat.min_eq_left (toNat_le_greatest _)).symm
  others key hk := by
    rw [getElem?_counters_countDropped, if_neg fun h => hk verb h.symm]
  gauges := rfl
  path   := rfl

end ClusterMetadata.Metrics
