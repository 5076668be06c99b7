import JourneyPlanner.Json.Basic
import JourneyPlanner.Json.Token

/-!
# Reading JSON

Tokens are read one after the other; what is still open is kept on a stack.

* `Reader.run`: the state after as many tokens as can be taken.
* `Json.excerpt`: the value of a text as far as the text can be read.
* `Json.parse?`: the value of a text that can be read to its end.
-/

namespace JourneyPlanner.Json

/-- A value that has been opened and not closed yet. Its parts are listed with the last one in
front. -/
inductive Frame where
  | array (elements : List Json)
  | object (fields : List (String × Json))
  /-- an object that waits for the value of a field -/
  | field (fields : List (String × Json)) (name : String)

/-- What may come next. -/
inductive Expected where
  /-- a value -/
  | value
  /-- the first element of a list, or its end -/
  | firstElement
  /-- the first field of an object, or its end -/
  | firstField
  /-- the name of a field -/
  | name
  /-- the colon after a name -/
  | colon (name : String)
  /-- a comma or the end of what is open -/
  | rest
  /-- nothing: the value is complete -/
  | nothing (value : Json)

structure Reader where
  stack : List Frame
  expected : Expected

namespace Reader

/-- The reader after a complete value. -/
def put (value : Json) : List Frame → Option Reader
  | [] => some ⟨[], .nothing value⟩
  | .array elements :: stack => some ⟨.array (value :: elements) :: stack, .rest⟩
  | .field fields name :: stack => some ⟨.object ((name, value) :: fields) :: stack, .rest⟩
  | .object _ :: _ => none

/-- The reader after the first token of a value. -/
def open? (stack : List Frame) : Token → Option Reader
  | .null => put .null stack
  | .bool value => put (.bool value) stack
  | .int value => put (.int value) stack
  | .float value => put (.float value) stack
  | .string value => put (.string value) stack
  | .openBracket => some ⟨.array [] :: stack, .firstElement⟩
  | .openBrace => some ⟨.object [] :: stack, .firstField⟩
  | _ => none

/-- The reader after the end of what is open. -/
def close? (stack : List Frame) : Token → Option Reader
  | .closeBracket =>
    match stack with
    | .array elements :: stack => put (.array elements.reverse) stack
    | _ => none
  | .closeBrace =>
    match stack with
    | .object fields :: stack => put (.object fields.reverse) stack
    | _ => none
  | _ => none

/-- The reader after one more token. -/
def step (reader : Reader) (token : Token) : Option Reader :=
  let stack := reader.stack
  match reader.expected with
  | .value => open? stack token
  | .firstElement =>
    match token with
    | .closeBracket => close? stack token
    | _ => open? stack token
  | .firstField =>
    match token with
    | .closeBrace => close? stack token
    | .string name => some ⟨stack, .colon name⟩
    | _ => none
  | .name =>
    match token with
    | .string name => some ⟨stack, .colon name⟩
    | _ => none
  | .colon name =>
    match token, stack with
    | .colon, .object fields :: stack => some ⟨.field fields name :: stack, .value⟩
    | _, _ => none
  | .rest =>
    match token, stack with
    | .comma, .array _ :: _ => some ⟨stack, .value⟩
    | .comma, .object _ :: _ => some ⟨stack, .name⟩
    | _, _ => close? stack token
  | .nothing _ => none

/-- The reader after as many tokens as it can take, and whether these are all of them. -/
def run (reader : Reader) : List Token → Reader × Bool
  | [] => (reader, true)
  | token :: rest =>
    match reader.step token with
    | some next => next.run rest
    | none => (reader, false)

/-- The value that has been opened first, with those of its parts that are complete. It is null
before the first token. -/
def value (reader : Reader) : Json :=
  match reader.expected with
  | .nothing value => value
  | _ =>
    match reader.stack.getLast? with
    | some (.array elements) => .array elements.reverse
    | some (.object fields) | some (.field fields _) => .object fields.reverse
    | none => .null

/-- Whether nothing is missing from the value. -/
def isDone (reader : Reader) : Bool :=
  match reader.expected with
  | .nothing _ => true
  | _ => false

end Reader

/-- What a text gives up to the first place where it cannot be read. -/
structure Excerpt where
  value : Json
  /-- whether the text has been read to its end, and its value is complete -/
  complete : Bool

/-- The value of a text as far as the text can be read. -/
def excerpt (text : String) : Excerpt :=
  let (tokens, scanned) := Token.scan text
  let (reader, taken) := Reader.run ⟨[], .value⟩ tokens
  ⟨reader.value, scanned && taken && reader.isDone⟩

/-- The value of a text that can be read to its end. -/
def parse? (text : String) : Option Json :=
  let found := excerpt text
  if found.complete then some found.value else none

end JourneyPlanner.Json
