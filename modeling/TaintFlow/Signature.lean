import TaintFlow.Text.Space

/-!
# Method signatures

A method is named by the text `<Class: ret name(params)>`. `Signature.parse?` reads that notation
and `Signature.text` prints it; blanks around the parts, and empty parameter slots, are not
significant and are not printed again.

Reading never has a choice: the class ends at the first colon, the return type and the name end at
the first blank and the first opening parenthesis after them, the parameters at the first closing
one. Each part is therefore a longest run of the characters it admits.
-/

namespace TaintFlow

structure Signature where
  className : String
  returnType : String
  name : String
  params : List String
deriving DecidableEq, Repr

namespace Signature

open Text

/-- The signature without its class: `ret name(params)`. -/
def subSignature (s : Signature) : String :=
  s.returnType ++ " " ++ s.name ++ "(" ++ String.intercalate "," s.params ++ ")"

def text (s : Signature) : String :=
  "<" ++ s.className ++ ": " ++ s.subSignature ++ ">"

instance : ToString Signature := ⟨text⟩

def isClassChar (c : Char) : Bool := !(c == ':' || c == '<' || c == '>' || isSpace c)

def isTypeChar (c : Char) : Bool := !isSpace c

def isNameChar (c : Char) : Bool := !(isSpace c || c == '(')

def isParamChar (c : Char) : Bool := !(c == '(' || c == ')')

/-- The parameter types of a parameter list: trimmed, the empty ones dropped. -/
def paramTypes (cs : List Char) : List String :=
  (((pieces ',' cs).map trim).filter (· ≠ [])).map String.ofList

def parseChars? (cs : List Char) : Option Signature := do
  let cs ← expect? '<' (trimStart cs)
  let (className, cs) ← run? isClassChar cs
  let cs ← expect? ':' cs
  let (_, cs) ← run? isSpace cs
  let (returnType, cs) ← run? isTypeChar cs
  let (_, cs) ← run? isSpace cs
  let (name, cs) ← run? isNameChar cs
  let cs ← expect? '(' cs
  let params := cs.takeWhile isParamChar
  let cs ← expect? ')' (cs.dropWhile isParamChar)
  let cs ← expect? '>' cs
  guard (cs.all isSpace)
  return {
    className := String.ofList className
    returnType := String.ofList returnType
    name := String.ofList name
    params := paramTypes params }

def parse? (text : String) : Option Signature := parseChars? text.toList

/-- Static initializers are entered without arguments, whatever the call passes. -/
def isStaticInitializer (s : Signature) : Bool := s.name == "<clinit>"

end Signature

end TaintFlow
