import Mathlib.Tactic

/-!
# Greedy continuations

`next` answers a text with the token that follows it.

* `Continues next ctx out`: every token of `out` is the answer to `ctx` and what comes before it.
* `continues_append`: continuations compose.
* `greedyText`: decoding one token at a time, with a limit, an end-of-text test and a listener.
-/

namespace Greedy

variable {α : Type} {next : List α → α} {ctx : List α}

/-- Every token of `out` is the answer to `ctx` and the tokens before it. -/
def Continues (next : List α → α) : List α → List α → Prop
  | _, [] => True
  | ctx, t :: out => t = next ctx ∧ Continues next (ctx ++ [t]) out

@[simp] theorem continues_nil : Continues next ctx [] := trivial

/-- Continuations compose. -/
theorem continues_append {a b : List α} :
    Continues next ctx (a ++ b) ↔ Continues next ctx a ∧ Continues next (ctx ++ a) b := by
  induction a generalizing ctx with
  | nil => simp
  | cons t a ih =>
    rw [List.cons_append, Continues, Continues, ih, and_assoc, List.append_assoc,
      List.singleton_append]

theorem continues_concat {a : List α} {t : α} :
    Continues next ctx (a ++ [t]) ↔ Continues next ctx a ∧ t = next (ctx ++ a) := by
  simp [continues_append, Continues]

/-- Plain greedy decoding: at most `n` tokens, up to the end of the text, and no further than the
listener wants after what it has heard. -/
def greedyText (next : List α → α) (isEnd : α → Bool) (goesOn : List α → Bool) :
    ℕ → List α → List α → List α
  | 0, _, heard => heard
  | n + 1, ctx, heard =>
    if isEnd (next ctx) = true then heard
    else if goesOn (heard ++ [next ctx]) = true then
      greedyText next isEnd goesOn n (ctx ++ [next ctx]) (heard ++ [next ctx])
    else heard ++ [next ctx]

end Greedy
