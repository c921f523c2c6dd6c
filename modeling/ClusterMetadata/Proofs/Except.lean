/-!
Computations that may fail: when a sequence of them succeeds, and which of them failed when it does
not.
-/

namespace ClusterMetadata

variable {α β ε : Type} {x : Except ε α} {f : α → Except ε β} {as : List α} {b : β} {e : ε}

theorem isOk_iff : x.isOk = true ↔ ∃ a, x = .ok a := by
  cases x
  case error e => exact iff_of_false Bool.false_ne_true (by simp)
  case ok a    => exact iff_of_true rfl ⟨a, rfl⟩

theorem exists_of_isOk_eq_false (h : x.isOk = false) : ∃ e, x = .error e := by
  cases x
  case error e => exact ⟨e, rfl⟩
  case ok a    => cases h

theorem exists_of_any_toOption {p : α → Bool} (h : x.toOption.any p = true) :
    ∃ a, x = .ok a ∧ p a = true := by
  cases x
  case error e => cases h
  case ok a    => exact ⟨a, rfl, h⟩

theorem bind_eq_ok_iff : x >>= f = .ok b ↔ ∃ a, x = .ok a ∧ f a = .ok b := by
  cases x
  case error => exact iff_of_false (by rintro ⟨⟩) (by simp)
  case ok a  => exact ⟨fun h => ⟨a, rfl, h⟩, fun ⟨_, ha, h⟩ => Except.ok.inj ha ▸ h⟩

theorem bind_eq_error_iff :
    x >>= f = .error e ↔ x = .error e ∨ ∃ a, x = .ok a ∧ f a = .error e := by
  cases x
  case error e' =>
    change Except.error e' = .error e ↔ _
    simp
  case ok a =>
    change f a = .error e ↔ _
    simp

theorem seq_eq_ok_iff {x : Except ε Unit} {y : Except ε α} {a : α} :
    (do x; y) = .ok a ↔ x = .ok () ∧ y = .ok a := by
  rw [bind_eq_ok_iff]
  exact ⟨fun ⟨_, hx, hy⟩ => ⟨hx, hy⟩, fun ⟨hx, hy⟩ => ⟨(), hx, hy⟩⟩

-- What comes after the first part fails or not, whatever that part gave.
theorem isOk_bind {p : Prop} (h : ∀ a, x = .ok a → ((f a).isOk = true ↔ p)) :
    (x >>= f).isOk = true ↔ x.isOk = true ∧ p := by
  cases x
  case error e => exact ⟨nofun, nofun⟩
  case ok a    => exact (h a rfl).trans (and_iff_right rfl).symm

theorem isOk_map {g : α → β} : (do return g (← x)).isOk = true ↔ x.isOk = true := by
  cases x <;> rfl

-- What comes after a check that may throw.
theorem check_eq_ok_iff {p : Prop} [Decidable p] {f : Unit → Except ε Unit} :
    (if p then throw e >>= f else f ()) = .ok () ↔ ¬p ∧ f () = .ok () := by
  split
  case isTrue h  => exact iff_of_false (by rintro ⟨⟩) (by simp [h])
  case isFalse h => exact (and_iff_right h).symm

theorem mapM_eq_ok {g : α → β} (h : ∀ a ∈ as, f a = .ok (g a)) :
    as.mapM f = .ok (as.map g) := by
  induction as
  case nil => rfl
  case cons a as hi =>
    rw [List.mapM_cons, h a List.mem_cons_self, hi fun a ha => h a (List.mem_cons_of_mem _ ha)]
    rfl

theorem exists_of_mapM_eq_ok {bs : List β} (h : as.mapM f = .ok bs) :
    ∀ a ∈ as, ∃ b, f a = .ok b := by
  induction as generalizing bs
  case nil => simp
  case cons a as hi =>
    rw [List.mapM_cons, bind_eq_ok_iff] at h
    have ⟨b, hb, h⟩ := h
    have ⟨_, hbs, _⟩ := bind_eq_ok_iff.mp h
    simpa [hb] using hi hbs

theorem exists_of_mapM_eq_error (h : as.mapM f = .error e) : ∃ a ∈ as, f a = .error e := by
  induction as
  case nil => cases h
  case cons a as hi =>
    rw [List.mapM_cons, bind_eq_error_iff] at h
    rcases h with h | ⟨_, _, h⟩
    · exact ⟨a, List.mem_cons_self, h⟩
    · rcases bind_eq_error_iff.mp h with h | ⟨_, _, h⟩
      · have ⟨a', hm, ha⟩ := hi h
        exact ⟨a', List.mem_cons_of_mem a hm, ha⟩
      · cases h

theorem forM_eq_ok_iff {f : α → Except ε Unit} :
    as.forM f = .ok () ↔ ∀ a ∈ as, f a = .ok () := by
  induction as
  case nil => exact iff_of_true rfl (by simp)
  case cons a as hi => rw [List.forM, List.forall_mem_cons, ← hi, seq_eq_ok_iff]

theorem exists_of_forM_eq_error {f : α → Except ε Unit} (h : as.forM f = .error e) :
    ∃ a ∈ as, f a = .error e := by
  induction as
  case nil => cases h
  case cons a as hi =>
    rw [List.forM, bind_eq_error_iff] at h
    rcases h with h | ⟨_, _, h⟩
    · exact ⟨a, List.mem_cons_self, h⟩
    · have ⟨a', hm, ha⟩ := hi h
      exact ⟨a', List.mem_cons_of_mem a hm, ha⟩

-- Two computations fail alike, or give results in the relation.
inductive Alike {α' : Type} (r : α → α' → Prop) : Except ε α → Except ε α' → Prop
  | ok {a : α} {b : α'} (h : r a b) : Alike r (.ok a) (.ok b)
  | error (e : ε) : Alike r (.error e) (.error e)

namespace Alike

variable {α' β' γ : Type} {r : α → α' → Prop} {r' : β → β' → Prop} {y : Except ε α'}

theorem bind {g : α' → Except ε β'} (h : Alike r x y) (hf : ∀ {a b}, r a b → Alike r' (f a) (g b)) :
    Alike r' (x >>= f) (y >>= g) := by
  cases h
  case ok h    => exact hf h
  case error e => exact .error e

theorem foldlM {f : α → γ → Except ε α} {g : α' → γ → Except ε α'} {a : α} {b : α'}
    (hs : ∀ {a b} c, r a b → Alike r (f a c) (g b c)) (h : r a b) (cs : List γ) :
    Alike r (cs.foldlM f a) (cs.foldlM g b) := by
  induction cs generalizing a b
  case nil           => exact .ok h
  case cons c cs hi =>
    rw [List.foldlM_cons, List.foldlM_cons]
    exact (hs c h).bind hi

end Alike

theorem exists_of_foldlM_eq_error {f : β → α → Except ε β} (h : as.foldlM f b = .error e) :
    ∃ a ∈ as, ∃ b, f b a = .error e := by
  induction as generalizing b
  case nil => cases h
  case cons a as hi =>
    rw [List.foldlM_cons, bind_eq_error_iff] at h
    rcases h with h | ⟨_, _, h⟩
    · exact ⟨a, List.mem_cons_self, b, h⟩
    · have ⟨a', hm, ha⟩ := hi h
      exact ⟨a', List.mem_cons_of_mem a hm, ha⟩

end ClusterMetadata
