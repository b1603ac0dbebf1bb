/-
  PropertyList.Text.Reading

  Reading a whole run of code points with a function that takes one off the
  front.  `readAll` stops at the first place where there is none; `decode?` asks
  that nothing is left over.
-/
import PropertyList.Text

namespace PropertyList

/-- Takes items off the front while there are any, at most `fuel` of them: the
    items, after those in `taken`, and what is left. -/
def readAll {α β : Type} (next? : List β → Option (α × List β)) :
    Nat → List α → List β → List α × List β
  | 0, taken, s => (taken.reverse, s)
  | fuel + 1, taken, s =>
    match next? s with
    | some (a, rest) => readAll next? fuel (a :: taken) rest
    | none => (taken.reverse, s)

/-- The items of the whole input; `none` if some of it is no item. -/
def decode? {α β : Type} (next? : List β → Option (α × List β)) (s : List β) : Option (List α) :=
  match readAll next? s.length [] s with
  | (items, []) => some items
  | _ => none

/-- What was taken before stays in front. -/
theorem readAll_taken {α β : Type} (next? : List β → Option (α × List β)) (fuel : Nat)
    (taken : List α) (s : List β) :
    readAll next? fuel taken s =
      (taken.reverse ++ (readAll next? fuel [] s).1, (readAll next? fuel [] s).2) := by
  induction fuel generalizing taken s with
  | zero => simp [readAll]
  | succ n ih =>
    unfold readAll
    split
    · next a rest _ =>
      rw [ih (a :: taken), ih [a]]
      simp
    · simp

end PropertyList
