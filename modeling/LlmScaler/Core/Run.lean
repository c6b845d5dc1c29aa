import Mathlib

/-!
# Guarded runs of a deterministic machine

A machine is a function `next : σ → α → σ` from a state and an action to the next state. A run is a
list of actions; `Keeps ok` says that every action of the run meets a condition on the state it is
taken in. One induction gives both rules used later: an invariant of guarded steps holds at the end
of a run, and a property of single steps at every step of it.
-/

namespace LlmScaler.Core

variable {σ α : Type*}

/-- The state reached by taking the actions in order. -/
def runFrom (next : σ → α → σ) (s : σ) (as : List α) : σ :=
  as.foldl next s

/-- Every action of the run meets `ok` in the state it is taken in. -/
def Keeps (next : σ → α → σ) (ok : σ → α → Prop) : σ → List α → Prop
  | _, [] => True
  | s, a :: as => ok s a ∧ Keeps next ok (next s a) as

instance (next : σ → α → σ) (ok : σ → α → Prop) [∀ s a, Decidable (ok s a)] :
    ∀ s as, Decidable (Keeps next ok s as)
  | _, [] => isTrue trivial
  | s, a :: as =>
    have := instDecidableKeeps next ok (next s a) as
    inferInstanceAs (Decidable (_ ∧ _))

variable {next : σ → α → σ} {ok : σ → α → Prop}

@[simp] theorem runFrom_nil (s : σ) : runFrom next s [] = s := rfl

@[simp] theorem runFrom_cons (s : σ) (a : α) (as : List α) :
    runFrom next s (a :: as) = runFrom next (next s a) as := rfl

theorem runFrom_append (s : σ) (as bs : List α) :
    runFrom next s (as ++ bs) = runFrom next (runFrom next s as) bs :=
  List.foldl_append ..

theorem keeps_append {s : σ} {as bs : List α} :
    Keeps next ok s (as ++ bs) ↔ Keeps next ok s as ∧ Keeps next ok (runFrom next s as) bs := by
  induction as generalizing s with
  | nil => simp [Keeps]
  | cons a as ih => simp [Keeps, ih, and_assoc]

theorem Keeps.invariant_mem (Inv : σ → Prop) {s : σ} {as : List α}
    (hstep : ∀ s, ∀ a ∈ as, Inv s → ok s a → Inv (next s a)) (hinit : Inv s)
    (h : Keeps next ok s as) : Inv (runFrom next s as) := by
  induction as generalizing s with
  | nil => exact hinit
  | cons a as ih =>
    exact ih (fun s b hb => hstep s b (.tail a hb)) (hstep s a (.head as) hinit h.1) h.2

theorem Keeps.invariant (Inv : σ → Prop) (hstep : ∀ s a, Inv s → ok s a → Inv (next s a))
    {s : σ} {as : List α} (hinit : Inv s) (h : Keeps next ok s as) : Inv (runFrom next s as) :=
  h.invariant_mem Inv (fun s a _ => hstep s a) hinit

theorem Keeps.last {s : σ} {as : List α} {a : α} (h : Keeps next ok s (as ++ [a])) :
    Keeps next ok s as ∧ ok (runFrom next s as) a := by
  obtain ⟨hinit, hlast⟩ := keeps_append.mp h
  exact ⟨hinit, hlast.1⟩

end LlmScaler.Core
