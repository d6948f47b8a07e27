import Ippcode.Proofs.Rules

/-! # Reachable states

A state is reachable if steps lead to it from the start. A step that ends or fails leaves a state
too, from which the program can be run again: `Returns` is one run that comes to its end, and
`Calls` so many of them, each going on where the one before it stopped.
-/
namespace Ippcode

variable {ρ σ : Type}

def Progress.Over : Progress ρ σ → Prop
  | .running _ => False
  | .ended .. | .failed .. => True

namespace Machine

variable [Reader ρ] [Writer σ]

inductive Reachable (p : Program) : Machine ρ σ → Prop
  | start (input : ρ) (stdout stderr : σ) : Reachable p (start input stdout stderr)
  | step {m : Machine ρ σ} (h : Reachable p m) : Reachable p (m.step p).machine

/-- A run from a state comes to its end, and this is what it comes to. -/
def Returns (p : Program) (m : Machine ρ σ) (r : Progress ρ σ) : Prop :=
  r.Over ∧ ∃ n, m.run p n = r

/-- What the last of `k + 1` runs in a row returns. -/
inductive Calls (p : Program) (m : Machine ρ σ) : Nat → Progress ρ σ → Prop
  | once {r : Progress ρ σ} (h : Returns p m r) : Calls p m 0 r
  | again {k : Nat} {r r' : Progress ρ σ} (h : Calls p m k r) (h' : Returns p r.machine r') :
    Calls p m (k + 1) r'

variable {p : Program} {m m' : Machine ρ σ} {r r' : Progress ρ σ}

/-! ## One run -/

theorem run_of_over (h : (m.step p).Over) (n : Nat) : m.run p (n + 1) = m.step p := by
  unfold run
  cases hs : m.step p with
  | running m' => simp [hs, Progress.Over] at h
  | ended | failed => rfl

theorem run_of_running (h : m.step p = .running m') (n : Nat) :
    m.run p (n + 1) = m'.run p n := by
  simp only [run, h]

/-- A run either takes its first step and goes on, or that step is its last. -/
theorem run_succ_cases (p : Program) (m : Machine ρ σ) (n : Nat) :
    (∃ m', m.step p = .running m' ∧ m.run p (n + 1) = m'.run p n) ∨
      (m.step p).Over ∧ m.run p (n + 1) = m.step p := by
  cases hs : m.step p with
  | running m' => exact .inl ⟨m', rfl, run_of_running hs n⟩
  | ended | failed =>
    have ho : (m.step p).Over := by simp [hs, Progress.Over]
    exact .inr ⟨trivial, hs ▸ run_of_over ho n⟩

theorem run_add_of_running {n : Nat} (h : m.run p n = .running m') (d : Nat) :
    m.run p (n + d) = m'.run p d := by
  induction n generalizing m with
  | zero =>
    cases h
    rw [Nat.zero_add]
  | succ n ih =>
    cases hs : m.step p with
    | running m₁ =>
      rw [run_of_running hs] at h
      rw [Nat.add_right_comm, run_of_running hs, ih h]
    | ended | failed => simp [run, hs] at h

/-- A run that is over is the same with more steps allowed. -/
theorem run_add_of_over {n : Nat} (h : (m.run p n).Over) (d : Nat) :
    m.run p (n + d) = m.run p n := by
  induction n generalizing m with
  | zero => exact h.elim
  | succ n ih =>
    rw [Nat.add_right_comm]
    obtain ⟨m', hs, hrun⟩ | ⟨ho, hrun⟩ := run_succ_cases p m n
    · rw [hrun] at h
      rw [hrun, run_of_running hs, ih h]
    · rw [hrun, run_of_over ho]

theorem Reachable.of_running (h : Reachable p m) (hs : m.step p = .running m') :
    Reachable p m' := by
  have h' := h.step
  rwa [hs] at h'

theorem Reachable.of_run (h : Reachable p m) {n : Nat} (hr : m.run p n = .running m') :
    Reachable p m' := by
  induction n generalizing m with
  | zero =>
    cases hr
    exact h
  | succ n ih =>
    cases hs : m.step p with
    | running m₁ =>
      rw [run_of_running hs] at hr
      exact ih (h.of_running hs) hr
    | ended | failed => simp [Machine.run, hs] at hr

theorem returns_iff_of_over (h : (m.step p).Over) : Returns p m r ↔ r = m.step p := by
  constructor
  · rintro ⟨hr, n, rfl⟩
    cases n with
    | zero => exact hr.elim
    | succ n => exact run_of_over h n
  · rintro rfl
    exact ⟨h, 1, run_of_over h 0⟩

/-- A run that returns does so with a last step from a state that it reached. -/
theorem Returns.exists_last (h : Returns p m r) (hm : Reachable p m) :
    ∃ last, Reachable p last ∧ r = last.step p ∧ r.Over := by
  obtain ⟨hr, n, rfl⟩ := h
  induction n generalizing m with
  | zero => exact hr.elim
  | succ n ih =>
    obtain ⟨m', hs, hrun⟩ | ⟨_, hrun⟩ := run_succ_cases p m n
    · rw [hrun] at hr ⊢
      exact ih (hm.of_running hs) hr
    · exact ⟨m, hm, hrun, hr⟩

/-! ## Runs in a row -/

theorem Calls.exists_last {k : Nat} (h : Calls p m k r) (hm : Reachable p m) :
    ∃ last, Reachable p last ∧ r = last.step p ∧ r.Over := by
  induction h with
  | once h => exact h.exists_last hm
  | again _ h ih =>
    obtain ⟨last, hl, rfl, -⟩ := ih
    exact h.exists_last hl.step

/-- Runs in a row that are each over at their first step return what these steps lead to. -/
theorem calls_iff (rs : Nat → Progress ρ σ) (hover : ∀ k, (rs k).Over) (h0 : m.step p = rs 0)
    (hstep : ∀ k, (rs k).machine.step p = rs (k + 1)) (k : Nat) : Calls p m k r ↔ r = rs k := by
  have hret : ∀ {n : Machine ρ σ} {k : Nat} {r : Progress ρ σ}, n.step p = rs k →
      (Returns p n r ↔ r = rs k) := by
    intro n k r h
    rw [returns_iff_of_over (h ▸ hover k), h]
  induction k generalizing r with
  | zero =>
    constructor
    · rintro ⟨h⟩
      exact (hret h0).1 h
    · intro h
      exact .once ((hret h0).2 h)
  | succ k ih =>
    constructor
    · rintro (_ | ⟨h, h'⟩)
      rw [ih.1 h] at h'
      exact (hret (hstep k)).1 h'
    · intro h
      exact .again (ih.2 rfl) ((hret (hstep k)).2 h)

end Machine

end Ippcode
