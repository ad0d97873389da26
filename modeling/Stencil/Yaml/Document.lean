import Stencil.Yaml.Token
/-!
# YAML documents

The value of a document, from its tokens.
-/

namespace Stencil.Yaml

def isMissing (ends tokens : List Token) : Bool :=
  match tokens with
  | [] => true
  | token :: _ => ends.contains token

mutual

/-- The value that starts here.  `block` says that block collections may stand here,
`flush` that the dashes of one may stand in the column of the key. -/
def readNode (fuel : Nat) (block flush : Bool) (tokens : List Token) :
    Option (Yaml × List Token) :=
  match fuel with
  | 0 => none
  | fuel + 1 =>
    match tokens with
    | .scalar text plain :: rest => some (scalar text plain, rest)
    | .openBracket :: .closeBracket :: rest => some (sequence [], rest)
    | .openBracket :: rest => readFlowElements fuel [] rest
    | .openBrace :: .closeBrace :: rest => some (mapping [], rest)
    | .openBrace :: rest => readFlowEntries fuel [] rest
    | .sequenceStart :: rest => if block then readElements fuel true [] rest else none
    | .mappingStart :: rest => if block then readEntries fuel [] rest else none
    | .dash :: _ => if flush then readElements fuel false [] tokens else none
    | _ => none

def readOptional (fuel : Nat) (block flush : Bool) (ends tokens : List Token) :
    Option (Yaml × List Token) :=
  match fuel with
  | 0 => none
  | fuel + 1 =>
    if isMissing ends tokens then some (blank, tokens) else readNode fuel block flush tokens

/-- The elements of a block sequence; `done` holds those read, last first.  A
sequence that is not indented ends without a mark. -/
def readElements (fuel : Nat) (indented : Bool) (done : List Yaml) (tokens : List Token) :
    Option (Yaml × List Token) :=
  match fuel with
  | 0 => none
  | fuel + 1 =>
    match tokens with
    | .dash :: rest =>
      match readOptional fuel true false [.dash, .key, .colon, .blockEnd] rest with
      | none => none
      | some (element, rest) => readElements fuel indented (element :: done) rest
    | .blockEnd :: rest =>
      some (sequence done.reverse, if indented then rest else tokens)
    | _ => if indented then none else some (sequence done.reverse, tokens)

def readEntries (fuel : Nat) (done : List (Yaml × Yaml)) (tokens : List Token) :
    Option (Yaml × List Token) :=
  match fuel with
  | 0 => none
  | fuel + 1 =>
    match tokens with
    | .key :: rest =>
      match readOptional fuel true true [.key, .colon, .blockEnd] rest with
      | none => none
      | some (key, rest) =>
        match readValue fuel true [.key, .colon, .blockEnd] rest with
        | none => none
        | some (value, rest) => readEntries fuel ((key, value) :: done) rest
    | .blockEnd :: rest => some (mapping done.reverse, rest)
    | _ => none

def readValue (fuel : Nat) (block : Bool) (ends tokens : List Token) :
    Option (Yaml × List Token) :=
  match fuel with
  | 0 => none
  | fuel + 1 =>
    match tokens with
    | .colon :: rest => readOptional fuel block block ends rest
    | _ => some (blank, tokens)

/-- A key with its value in a flow collection that `close` ends.  The key may lack
its value, and what has no colon behind it is a key only by a mark. -/
def readPair (fuel : Nat) (close : Token) (tokens : List Token) :
    Option ((Yaml × Yaml) × List Token) :=
  match fuel with
  | 0 => none
  | fuel + 1 =>
    match tokens with
    | .key :: rest =>
      match readOptional fuel false false [.colon, .comma, close] rest with
      | none => none
      | some (key, rest) =>
        (readValue fuel false [.comma, close] rest).map fun (value, rest) => ((key, value), rest)
    | _ => (readNode fuel false false tokens).map fun (key, rest) => ((key, blank), rest)

def readFlowElements (fuel : Nat) (done : List Yaml) (tokens : List Token) :
    Option (Yaml × List Token) :=
  match fuel with
  | 0 => none
  | fuel + 1 =>
    let isPair := tokens.head? == some .key
    match readPair fuel .closeBracket tokens with
    | none => none
    | some (pair, rest) =>
      let done := (if isPair then mapping [pair] else pair.1) :: done
      match rest with
      | .comma :: .closeBracket :: rest | .closeBracket :: rest =>
        some (sequence done.reverse, rest)
      | .comma :: rest => readFlowElements fuel done rest
      | _ => none

def readFlowEntries (fuel : Nat) (done : List (Yaml × Yaml)) (tokens : List Token) :
    Option (Yaml × List Token) :=
  match fuel with
  | 0 => none
  | fuel + 1 =>
    match readPair fuel .closeBrace tokens with
    | none => none
    | some (entry, rest) =>
      let done := entry :: done
      match rest with
      | .comma :: .closeBrace :: rest | .closeBrace :: rest => some (mapping done.reverse, rest)
      | .comma :: rest => readFlowEntries fuel done rest
      | _ => none

end

def readDocument (tokens : List Token) : Option (Yaml × List Token) :=
  let fuel := 4 * tokens.length + 4
  match tokens with
  | [] => some (blank, [])
  | .documentStart :: rest =>
    readOptional fuel true false [.documentStart, .documentEnd] rest
  | _ => readNode fuel true false tokens

def read? (text : String) : Option Yaml :=
  match (tokens? text).bind readDocument with
  | some (value, rest) => if rest.all (· == .documentEnd) then some value else none
  | none => none

end Stencil.Yaml
