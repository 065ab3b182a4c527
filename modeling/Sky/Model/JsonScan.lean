import Mathlib

/-! # `json.Valid`: the scanner of `encoding/json` -/

namespace Sky.JsonScan

inductive ParseState where
  | objectKey
  | objectValue
  | arrayValue
  deriving DecidableEq

/-- What the scanner expects. `literal`: the rest of `true`, `false` or `null`. -/
inductive Step where
  | beginValueOrEmpty
  | beginValue
  | beginStringOrEmpty
  | beginString
  | endValue
  | endTop
  | inString
  | inStringEsc
  | inStringEscU (left : ℕ)
  | neg
  | digits
  | zero
  | dot
  | dot0
  | e
  | eSign
  | e0
  | literal (rest : List Char)
  deriving DecidableEq

structure Scanner where
  step : Step
  parseState : List ParseState
  deriving DecidableEq

def isSpace (c : Char) : Bool := c = ' ' || c = '\t' || c = '\r' || c = '\n'

def isHex (c : Char) : Bool :=
  c.isDigit || ('a' ≤ c && c ≤ 'f') || ('A' ≤ c && c ≤ 'F')

def maxNestingDepth : ℕ := 10000

def Scanner.goto (s : Scanner) (step : Step) : Option Scanner := some { s with step := step }

def Scanner.pushParseState (s : Scanner) (p : ParseState) (step : Step) : Option Scanner :=
  if s.parseState.length + 1 ≤ maxNestingDepth then some ⟨step, p :: s.parseState⟩ else none

def popParseState (rest : List ParseState) : Option Scanner :=
  some ⟨if rest.isEmpty then .endTop else .endValue, rest⟩

def Scanner.endTop (s : Scanner) (c : Char) : Option Scanner :=
  if isSpace c then s.goto .endTop else none

def Scanner.endValue (s : Scanner) (c : Char) : Option Scanner :=
  match s.parseState with
  | [] => s.endTop c
  | p :: rest =>
      if isSpace c then s.goto .endValue
      else
        match p with
        | .objectKey => if c = ':' then some ⟨.beginValue, .objectValue :: rest⟩ else none
        | .objectValue =>
            if c = ',' then some ⟨.beginString, .objectKey :: rest⟩
            else if c = '}' then popParseState rest
            else none
        | .arrayValue =>
            if c = ',' then s.goto .beginValue
            else if c = ']' then popParseState rest
            else none

def Scanner.beginValue (s : Scanner) (c : Char) : Option Scanner :=
  if isSpace c then some s
  else if c = '{' then s.pushParseState .objectKey .beginStringOrEmpty
  else if c = '[' then s.pushParseState .arrayValue .beginValueOrEmpty
  else if c = '"' then s.goto .inString
  else if c = '-' then s.goto .neg
  else if c = '0' then s.goto .zero
  else if c = 't' then s.goto (.literal ['r', 'u', 'e'])
  else if c = 'f' then s.goto (.literal ['a', 'l', 's', 'e'])
  else if c = 'n' then s.goto (.literal ['u', 'l', 'l'])
  else if c.isDigit then s.goto .digits
  else none

def Scanner.beginString (s : Scanner) (c : Char) : Option Scanner :=
  if isSpace c then some s else if c = '"' then s.goto .inString else none

/-- After the integer part of a number. -/
def Scanner.zero (s : Scanner) (c : Char) : Option Scanner :=
  if c = '.' then s.goto .dot
  else if c = 'e' ∨ c = 'E' then s.goto .e
  else s.endValue c

def Scanner.eSign (s : Scanner) (c : Char) : Option Scanner :=
  if c.isDigit then s.goto .e0 else none

def Scanner.next (s : Scanner) (c : Char) : Option Scanner :=
  match s.step with
  | .beginValueOrEmpty =>
      if isSpace c then some s else if c = ']' then s.endValue c else s.beginValue c
  | .beginValue => s.beginValue c
  | .beginStringOrEmpty =>
      if isSpace c then some s
      else if c = '}' then popParseState s.parseState.tail
      else s.beginString c
  | .beginString => s.beginString c
  | .endValue => s.endValue c
  | .endTop => s.endTop c
  | .inString =>
      if c = '"' then s.goto .endValue
      else if c = '\\' then s.goto .inStringEsc
      else if c.toNat < 0x20 then none
      else some s
  | .inStringEsc =>
      if c ∈ ['b', 'f', 'n', 'r', 't', '\\', '/', '"'] then s.goto .inString
      else if c = 'u' then s.goto (.inStringEscU 3)
      else none
  | .inStringEscU left =>
      if isHex c then s.goto (if left = 0 then .inString else .inStringEscU (left - 1)) else none
  | .neg =>
      if c = '0' then s.goto .zero else if c.isDigit then s.goto .digits else none
  | .digits => if c.isDigit then some s else s.zero c
  | .zero => s.zero c
  | .dot => if c.isDigit then s.goto .dot0 else none
  | .dot0 =>
      if c.isDigit then some s else if c = 'e' ∨ c = 'E' then s.goto .e else s.endValue c
  | .e => if c = '+' ∨ c = '-' then s.goto .eSign else s.eSign c
  | .eSign => s.eSign c
  | .e0 => if c.isDigit then some s else s.endValue c
  | .literal [] => none
  | .literal (x :: rest) =>
      if c = x then s.goto (if rest.isEmpty then .endValue else .literal rest) else none

/-- At the end of the text the scanner reads one space, unless the value has ended. -/
def Scanner.eof (s : Scanner) : Bool :=
  s.step = .endTop || (s.next ' ').any (·.step = .endTop)

def valid (text : String) : Bool :=
  (text.toList.foldlM Scanner.next ⟨.beginValue, []⟩).any Scanner.eof

example : valid "[1, -2.5]" = true := by decide

end Sky.JsonScan
