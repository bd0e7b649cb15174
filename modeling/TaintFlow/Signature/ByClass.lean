import TaintFlow.Grouping
import TaintFlow.Signature

/-!
# Grouping method texts by class

A list of method texts is filed by the part before the colon. The rule is laxer than the signature
grammar: any text `<class: rest>` counts, blanks around it and after the colon aside, as long as
neither part contains a line feed. Of several usable colons the first one splits the text.
-/

namespace TaintFlow.Signature

open Text

/-- Split `class: rest` at the first usable colon; `seen` is the class text read so far, reversed.
A colon is usable if no line feed stands before it or in what follows its blanks. -/
def splitClass? (seen : List Char) : List Char → Option (List Char × List Char)
  | [] => none
  | c :: cs =>
    if c = ':' ∧ '\n' ∉ trimStart cs then some (seen.reverse, trimStart cs)
    else if c = '\n' then none
    else splitClass? (c :: seen) cs

/-- The two parts of a text `<class: rest>`. -/
def classAndRest? (text : String) : Option (String × String) := do
  let cs ← expect? '<' (trimStart text.toList)
  -- the closing bracket is the last one, so it is looked for from the end
  let body ← expect? '>' (trimEnd cs).reverse
  let (className, rest) ← splitClass? [] body.reverse
  return (String.ofList className, String.ofList rest)

/-- The class of a text and the entry that is filed under it: the `rest` part if `sub` is set, and
the whole text otherwise. -/
def filing? (sub : Bool) (text : String) : Option (String × String) := do
  let (className, rest) ← classAndRest? text
  return (className, if sub then rest else text)

/-- File every text of the form `<class: rest>` under its class, in the order given; other texts are
skipped. -/
def byClass (texts : List String) (sub : Bool) : List (String × List String) :=
  (Grouping.ofList (texts.filterMap (filing? sub))).groups

end TaintFlow.Signature
