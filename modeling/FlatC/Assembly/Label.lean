/-!
# Labels

Functions and variables have labels made of their names. The labels inside a
function are a word and a number, and the end of a function has a label of its own.
-/

namespace FlatC.Label

/-- Where a function starts. -/
def function (name : String) : String := if name = "main" then name else "_" ++ name

/-- Where every `return` of a function goes. -/
def exit (name : String) : String := name ++ "_exit"

/-- Where a variable outside all functions is kept. -/
def global (name : String) : String := "_" ++ name

/-- The label with a number. -/
def numbered (stem : String) (n : Nat) : String := stem ++ "_" ++ toString n

end FlatC.Label
