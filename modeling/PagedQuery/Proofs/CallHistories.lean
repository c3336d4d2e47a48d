import Mathlib.Control.Monad.Basic
import PagedQuery.Proofs.CursorPages

namespace PagedQuery

inductive Call where
  | openUp
  | next
  | close
  deriving DecidableEq, Repr

/-- A call that was made, with its answer. -/
inductive Event where
  | opened (answer : Except Failure Unit)
  | paged (answer : Except Failure (Option Batch))
  | closed (answer : Except Failure Unit)
  deriving DecidableEq

namespace Cursor

variable {σ : Type}

/-- What a call comes to, and the state after it. -/
def respond (c : Cursor σ) (root : TempRoot) (s : σ) : Call → Event × σ
  | .openUp => (.opened (c.openUp.run root s).answer, (c.openUp.run root s).state)
  | .next => (.paged (c.next.run root s).answer, (c.next.run root s).state)
  | .close => (.closed (c.close.run root s).answer, (c.close.run root s).state)

def events (c : Cursor σ) (root : TempRoot) : σ → List Call → List Event
  | _, [] => []
  | s, call :: calls => (c.respond root s call).1 :: events c root (c.respond root s call).2 calls

def after (c : Cursor σ) (root : TempRoot) (s : σ) (calls : List Call) : σ :=
  calls.foldl (fun s call => (c.respond root s call).2) s

theorem after_openUp (c : Cursor σ) (root : TempRoot) (s : σ) :
    c.after root s [.openUp] = (c.openUp.run root s).state := rfl

theorem after_concat (c : Cursor σ) (root : TempRoot) (s : σ) (calls : List Call) (call : Call) :
    c.after root s (calls ++ [call]) = (c.respond root (c.after root s calls) call).2 := by
  unfold after
  rw [List.foldl_append]
  rfl

/-- Whether each call leaves what it has found, however it ends. -/
structure Keeps (c : Cursor σ) (root : TempRoot) (P : σ → Prop) : Prop where
  openUp : ∀ s, P s → c.openUp.Ensures root s fun _ t => P t
  next : ∀ s, P s → c.next.Ensures root s fun _ t => P t
  close : ∀ s, P s → c.close.Ensures root s fun _ t => P t

theorem Keeps.after {c : Cursor σ} {root : TempRoot} {P : σ → Prop} (h : c.Keeps root P) {s : σ}
    (hs : P s) (calls : List Call) : P (c.after root s calls) := by
  induction calls generalizing s with
  | nil => exact hs
  | cons call calls ih =>
    apply ih
    cases call with
    | openUp => exact h.openUp s hs
    | next => exact h.next s hs
    | close => exact h.close s hs

end Cursor
end PagedQuery
