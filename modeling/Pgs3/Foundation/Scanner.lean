import Mathlib

/-!
# Scanners

A scanner reads symbols one by one, writes output, may fail, and may stop by itself; what
stands behind the place where it stopped is not read.  A reader that is fed with fragments
and takes several symbols in one go is compared with the scanner that takes them one by one:
if each call does what the scanner does, the fragments make no difference (`feed_eq`).
-/

namespace Foundation

structure Scanner (σ ε β γ : Type) where
  halted : σ → Bool
  step : σ → β → Except ε (σ × List γ)

namespace Scanner

variable {σ ε β γ : Type}

/-- The state reached, the output, and how many symbols were read. -/
abbrev Reading (σ ε γ : Type) := Except ε (σ × List γ × Nat)

/-- Go on from where the first reading ended. -/
def Reading.andThen (first : Reading σ ε γ) (next : σ → Reading σ ε γ) : Reading σ ε γ :=
  match first with
  | .error e => .error e
  | .ok (s, out, n) =>
      match next s with
      | .error e => .error e
      | .ok (s', out', m) => .ok (s', out ++ out', n + m)

theorem Reading.andThen_assoc (r : Reading σ ε γ) (f g : σ → Reading σ ε γ) :
    (r.andThen f).andThen g = r.andThen fun s => (f s).andThen g := by
  rcases r with e | ⟨s, out, n⟩
  · rfl
  simp only [andThen]
  rcases f s with e | ⟨s', out', m⟩
  · rfl
  dsimp only
  rcases g s' with e | ⟨s'', out'', k⟩
  · rfl
  simp only [List.append_assoc, Nat.add_assoc]

def still (s : σ) : Reading σ ε γ := .ok (s, [], 0)

theorem still_andThen (s : σ) (next : σ → Reading σ ε γ) :
    (still s : Reading σ ε γ).andThen next = next s := by
  simp only [still, Reading.andThen]
  rcases next s with e | ⟨s', out, n⟩
  · rfl
  · simp

variable (M : Scanner σ ε β γ)

def read (s : σ) (b : β) : Reading σ ε γ :=
  match M.step s b with
  | .error e => .error e
  | .ok (s', out) => .ok (s', out, 1)

def scan (s : σ) : List β → Reading σ ε γ
  | [] => still s
  | b :: bs => if M.halted s then still s else (M.read s b).andThen fun s' => scan s' bs

theorem scan_halted {s : σ} (h : M.halted s = true) (bs : List β) : M.scan s bs = still s := by
  cases bs with
  | nil => rfl
  | cons b bs => rw [scan, if_pos h]

theorem scan_cons {s : σ} (h : M.halted s = false) (b : β) (bs : List β) :
    M.scan s (b :: bs) = (M.read s b).andThen fun s' => M.scan s' bs := by
  rw [scan, h]
  rfl

/-- **A cut makes no difference.** -/
theorem scan_append (s : σ) (as bs : List β) :
    M.scan s (as ++ bs) = (M.scan s as).andThen fun s' => M.scan s' bs := by
  induction as generalizing s with
  | nil => exact (still_andThen s fun s' => M.scan s' bs).symm
  | cons a as ih =>
    cases hhalted : M.halted s with
    | true =>
      rw [M.scan_halted hhalted, M.scan_halted hhalted, still_andThen, M.scan_halted hhalted]
    | false =>
      rw [List.cons_append, M.scan_cons hhalted, M.scan_cons hhalted, Reading.andThen_assoc]
      simp only [ih]

/-- Fragments are handed to the reader one by one, up to the first error. -/
def feed (push : σ → List β → Reading σ ε γ) (s : σ) : List (List β) → Reading σ ε γ
  | [] => still s
  | fragment :: fragments => (push s fragment).andThen fun s' => feed push s' fragments

/-- **Fragments make no difference** to a reader that reads as the scanner does. -/
theorem feed_eq {push : σ → List β → Reading σ ε γ} (h : ∀ s bs, push s bs = M.scan s bs)
    (s : σ) (fragments : List (List β)) : feed push s fragments = M.scan s fragments.flatten := by
  induction fragments generalizing s with
  | nil => rfl
  | cons fragment fragments ih =>
    rw [feed, List.flatten_cons, scan_append, h]
    simp only [ih]

/-- All of the symbols are read, with this output. -/
def Reads (s : σ) (bs : List β) (s' : σ) (out : List γ) : Prop :=
  M.scan s bs = .ok (s', out, bs.length)

section Reads

variable {M} {s s' s'' : σ} {out out' : List γ} {as bs : List β}

theorem Reads.nil (s : σ) : M.Reads s [] s [] := rfl

theorem Reads.append (h : M.Reads s as s' out) (h' : M.Reads s' bs s'' out') :
    M.Reads s (as ++ bs) s'' (out ++ out') := by
  unfold Reads at h h' ⊢
  rw [scan_append, h]
  simp only [Reading.andThen, h', List.length_append]

theorem Reads.cons {b : β} (hhalted : M.halted s = false) (hstep : M.step s b = .ok (s', out))
    (h : M.Reads s' bs s'' out') : M.Reads s (b :: bs) s'' (out ++ out') := by
  unfold Reads at h ⊢
  rw [M.scan_cons hhalted, read, hstep]
  simp only [Reading.andThen, h, List.length_cons, Nat.add_comm 1]

theorem Reads.single {b : β} (hhalted : M.halted s = false)
    (hstep : M.step s b = .ok (s', out)) : M.Reads s [b] s' out := by
  have h := Reads.cons hhalted hstep (.nil s')
  rwa [List.append_nil] at h

/-- The state only records what was read. -/
theorem Reads.along (state : List β → σ) (h : ∀ as b rest, bs = as ++ b :: rest →
      M.halted (state as) = false ∧ M.step (state as) b = .ok (state (as ++ [b]), [])) :
    M.Reads (state []) bs (state bs) [] := by
  suffices hrest : ∀ rest as, bs = as ++ rest → M.Reads (state as) rest (state bs) [] from
    hrest bs [] rfl
  intro rest
  induction rest with
  | nil =>
    intro as has
    rw [has, List.append_nil]
    exact .nil _
  | cons b rest ih =>
    intro as has
    obtain ⟨hhalted, hstep⟩ := h as b rest has
    exact .cons hhalted hstep (ih (as ++ [b]) (by rw [has, List.append_assoc]; rfl))

theorem Reads.stops (h : M.Reads s as s' out) (hhalted : M.halted s' = true) (bs : List β) :
    M.scan s (as ++ bs) = .ok (s', out, as.length) := by
  unfold Reads at h
  rw [scan_append, h]
  simp only [Reading.andThen, M.scan_halted hhalted, still, List.append_nil, Nat.add_zero]

end Reads

end Scanner

end Foundation
