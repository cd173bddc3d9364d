/-!
# Checks in a row

Several checks are made one after another, and the first that fails decides. What each of them looks
for is said by `finds turn fault`: at this turn there is something wrong, and `fault` reports it. A
piece of a program stands for the checks of some turns: it either passes them all, or reports what is
found at the first of them where anything is found. Main statement: a program that stands for all
checks fails with the fault that is found first, and succeeds if there is none.
-/

namespace TraceTimeline

section Checks

variable {ε α β : Type} (finds : Nat → ε → Prop)

def Passes (first last : Nat) : Prop :=
  ∀ turn fault, first ≤ turn → turn < last → ¬ finds turn fault

def FoundFirst (fault : ε) : Prop :=
  ∃ turn, finds turn fault ∧ Passes finds 0 turn

/-- The program makes the checks from turn `first` on and before turn `last`, and has a result of this
kind if they are passed. -/
structure Checks (first last : Nat) (program : Except ε α) (result : α → Prop) : Prop where
  of_ok : ∀ a, program = .ok a → Passes finds first last ∧ result a
  of_error : ∀ fault, program = .error fault →
    ∃ turn, first ≤ turn ∧ turn < last ∧ finds turn fault ∧ Passes finds first turn

variable {finds} {first middle last : Nat} {program : Except ε α} {next : α → Except ε β}
  {result : α → Prop} {goal : β → Prop} {fault other : ε}

theorem Passes.trans (h : Passes finds first middle) (h' : Passes finds middle last) :
    Passes finds first last := by
  intro turn fault hfirst hlast
  rcases Nat.lt_or_ge turn middle with hlt | hge
  · exact h turn fault hfirst hlt
  · exact h' turn fault hge hlast

theorem passes_succ (h : ∀ fault, ¬ finds first fault) : Passes finds first (first + 1) := by
  intro turn fault hfirst hlast
  obtain rfl : turn = first := by omega
  exact h fault

namespace Checks

theorem pure {a : α} (h : result a) : Checks finds first first (.ok a) result where
  of_ok := by
    rintro _ ⟨⟩
    exact ⟨fun _ _ hfirst hlast => absurd hlast (Nat.not_lt.mpr hfirst), h⟩
  of_error := nofun

/-- One check alone. -/
theorem single (hok : ∀ a, program = .ok a → (∀ fault, ¬ finds first fault) ∧ result a)
    (herror : ∀ fault, program = .error fault → finds first fault) :
    Checks finds first (first + 1) program result where
  of_ok a h := ⟨passes_succ (hok a h).1, (hok a h).2⟩
  of_error fault h := ⟨first, Nat.le_refl first, Nat.lt_succ_self first, herror fault h,
    fun _ _ hfirst hlast => absurd hlast (Nat.not_lt.mpr hfirst)⟩

/-- Turns that are passed already count too. -/
theorem after (hpassed : Passes finds first middle) (h : Checks finds middle last program result)
    (hfirst : first ≤ middle) : Checks finds first last program result where
  of_ok a ha := ⟨hpassed.trans (h.of_ok a ha).1, (h.of_ok a ha).2⟩
  of_error fault hfault := by
    obtain ⟨turn, hturn, hlt, hfound, hbefore⟩ := h.of_error fault hfault
    exact ⟨turn, Nat.le_trans hfirst hturn, hlt, hfound, hpassed.trans hbefore⟩

/-- What is checked next is not looked at before all is passed that is checked first. -/
theorem bind (h : Checks finds first middle program result)
    (hnext : ∀ a, result a → Checks finds middle last (next a) goal) (hfirst : first ≤ middle)
    (hlast : middle ≤ last) : Checks finds first last (program >>= next) goal := by
  cases hprogram : program with
  | error fault =>
      refine ⟨nofun, ?_⟩
      rintro _ ⟨⟩
      obtain ⟨turn, hturn, hlt, hfound⟩ := h.of_error fault hprogram
      exact ⟨turn, hturn, Nat.lt_of_lt_of_le hlt hlast, hfound⟩
  | ok a =>
      obtain ⟨hpassed, ha⟩ := h.of_ok a hprogram
      exact (hnext a ha).after hpassed hfirst

/-- A condition under which the program breaks off. -/
theorem orThrow {condition : Prop} [Decidable condition] {next : Unit → Except ε β}
    (hfound : condition → finds first fault) (hpassed : ¬ condition → ∀ other, ¬ finds first other)
    (hnext : ¬ condition → Checks finds (first + 1) last (next ()) goal) (hlast : first < last) :
    Checks finds first last (if condition then throw fault >>= next else next ()) goal := by
  by_cases hcondition : condition
  · rw [if_pos hcondition]
    refine ⟨nofun, ?_⟩
    rintro _ ⟨⟩
    exact ⟨first, Nat.le_refl first, hlast, hfound hcondition,
      fun _ _ hfirst hlast => absurd hlast (Nat.not_lt.mpr hfirst)⟩
  · rw [if_neg hcondition]
    exact (hnext hcondition).after (passes_succ (hpassed hcondition)) (Nat.le_succ first)

/-- Where at most one fault is found at each turn, and none behind the last, the program fails with
the fault that is found first. -/
theorem eq_error_iff (h : Checks finds 0 last program result)
    (hlast : ∀ turn fault, finds turn fault → turn < last)
    (hunique : ∀ turn fault other, finds turn fault → finds turn other → fault = other) :
    program = .error fault ↔ FoundFirst finds fault := by
  constructor
  · intro hprogram
    obtain ⟨turn, -, -, hfound, hpassed⟩ := h.of_error fault hprogram
    exact ⟨turn, hfound, hpassed⟩
  · rintro ⟨turn, hfound, hpassed⟩
    cases hprogram : program with
    | ok a => exact absurd hfound ((h.of_ok a hprogram).1 turn fault (Nat.zero_le turn)
        (hlast turn fault hfound))
    | error other =>
        obtain ⟨turn', -, -, hfound', hpassed'⟩ := h.of_error other hprogram
        rcases Nat.lt_trichotomy turn turn' with hlt | rfl | hgt
        · exact absurd hfound (hpassed' turn fault (Nat.zero_le turn) hlt)
        · rw [hunique turn other fault hfound' hfound]
        · exact absurd hfound' (hpassed turn' other (Nat.zero_le turn') hgt)

/-- The program succeeds if nothing is found. -/
theorem exists_ok_iff (h : Checks finds 0 last program result)
    (hlast : ∀ turn fault, finds turn fault → turn < last) :
    (∃ a, program = .ok a) ↔ ∀ turn fault, ¬ finds turn fault := by
  constructor
  · rintro ⟨a, ha⟩ turn fault hfound
    exact (h.of_ok a ha).1 turn fault (Nat.zero_le turn) (hlast turn fault hfound) hfound
  · intro hnone
    cases hprogram : program with
    | ok a => exact ⟨a, rfl⟩
    | error fault =>
        obtain ⟨turn, -, -, hfound, -⟩ := h.of_error fault hprogram
        exact absurd hfound (hnone turn fault)

end Checks

end Checks

/-- A program that is run succeeds with what the run gives. -/
theorem eq_ok_of_toOption {ε α : Type} {program : Except ε α} {a : α}
    (h : program.toOption = some a) : program = .ok a := by
  cases program with
  | error fault => cases h
  | ok b => rw [Option.some.inj h]

end TraceTimeline
