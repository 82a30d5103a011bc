import RenaProxy.CString

/-!
# Link contexts

A context parser reads every byte before the matcher does and says whether the
byte may take part in a replacement. There are three: `context.c` forbids every
byte, `context_full_link.c` allows what follows two slashes up to a blank, and
`context_html.c` allows the values of attributes and the text outside of tags.
-/
namespace RenaProxy

/-- A type of context states with its `parser_fnc`, `true` for an allowed byte. -/
class ContextParser (κ : Type) where
  parserFnc : κ → UInt8 → κ × Bool

/-- `" \t\v\n\r\f"` -/
def blanks : List UInt8 := [32, 9, 11, 10, 13, 12]

/-- The stages of `context_full_link.c`. -/
inductive FullLinkStage
  | unknown | bar | allowed | none | barS | allowedS | noneS
  deriving DecidableEq, Repr

namespace FullLinkStage

def backslash : UInt8 := 92
def slash : UInt8 := 47

/-- `evaluate` of `context_full_link.c`. -/
def evaluate (input : UInt8) : FullLinkStage → FullLinkStage × Bool
  | allowed =>
      (if input = backslash then allowedS
        else if input ∈ blanks then none else allowed, true)
  | bar =>
      (if input = slash then allowed else if input = backslash then barS else none, false)
  | barS => (if input = slash then allowed else none, false)
  | allowedS => (if input ∈ chars "tvnrfTVNRF" then none else allowed, true)
  | noneS => (if input = slash then bar else none, false)
  | unknown | none =>
      (if input = slash then bar else if input = backslash then noneS else none, false)

end FullLinkStage

/-- The stages of `context_html.c`. -/
inductive HtmlStage
  | unknown | outsideTag | insideTag
  | insideTag0 | insideTag1 | insideTag2
  | insideComm0 | insideComm1 | insideComm2
  | insideAttrib | insideAttribIgn | insideAttrib0
  | insideAttribS | insideAttribSIgn
  | insideAttribD | insideAttribDIgn
  deriving DecidableEq, Repr

namespace HtmlStage

/-- `*actual_stage += 1` -/
def next : HtmlStage → HtmlStage
  | unknown => outsideTag
  | outsideTag => insideTag
  | insideTag => insideTag0
  | insideTag0 => insideTag1
  | insideTag1 => insideTag2
  | insideTag2 => insideComm0
  | insideComm0 => insideComm1
  | insideComm1 => insideComm2
  | insideComm2 => insideAttrib
  | insideAttrib => insideAttribIgn
  | insideAttribIgn => insideAttrib0
  | insideAttrib0 => insideAttribS
  | insideAttribS => insideAttribSIgn
  | insideAttribSIgn => insideAttribD
  | insideAttribD => insideAttribDIgn
  | insideAttribDIgn => insideAttribDIgn

def lt : UInt8 := 60
def gt : UInt8 := 62
def equals : UInt8 := 61
def bang : UInt8 := 33
def dash : UInt8 := 45
def quote : UInt8 := 39
def doubleQuote : UInt8 := 34
def backslash : UInt8 := 92

/-- `inside_tag`. The stage and the ignore flag afterwards, and the answer. -/
def insideTagStep (input : UInt8) (stage : HtmlStage) (ignore : Bool) :
    HtmlStage × Bool × Bool :=
  let stage :=
    if input = gt then outsideTag
    else if input = equals then insideAttrib0
    else if stage = insideTag0 then
      if input = bang then insideTag1 else insideTag
    else if stage = insideTag1 ∨ stage = insideTag2 then
      if input = dash then stage.next else insideTag
    else stage
  (stage, ignore, !ignore)

/-- `inside_attribute`. The delimiters are those of the stage before the byte. -/
def insideAttributeStep (input : UInt8) (stage : HtmlStage) : HtmlStage × Bool × Bool :=
  let delim :=
    if stage = insideAttribS then [quote]
    else if stage = insideAttribD then [doubleQuote]
    else blanks ++ [gt]
  let stage :=
    if stage = insideAttrib0 then
      if input = quote then insideAttribS
      else if input = doubleQuote then insideAttribD
      else insideAttrib
    else stage
  let stage :=
    if input = backslash then stage.next
    else if input ∈ delim then insideTag
    else stage
  (stage, false, true)

/-- `inside_comment` -/
def insideCommentStep (input : UInt8) (stage : HtmlStage) (ignore : Bool) :
    HtmlStage × Bool × Bool :=
  let stage :=
    match stage with
    | insideComm2 =>
        if input = gt then outsideTag else if input ≠ dash then insideComm0 else stage
    | insideComm1 => if input = dash then insideComm2 else insideComm0
    | _ => if input = dash then insideComm1 else stage
  (stage, ignore, !ignore)

/-- `outside_tag` -/
def outsideTagStep (input : UInt8) (stage : HtmlStage) (ignore : Bool) :
    HtmlStage × Bool × Bool :=
  if input = lt then (insideTag0, true, !ignore) else (stage, ignore, !ignore)

/-- `evaluate` of `context_html.c`. -/
def evaluate (input : UInt8) (stage : HtmlStage) (ignore : Bool) : HtmlStage × Bool × Bool :=
  match stage with
  | insideAttrib | insideAttrib0 | insideAttribS | insideAttribD =>
      insideAttributeStep input stage
  | insideAttribIgn => (insideAttrib, ignore, !ignore)
  | insideAttribSIgn => (insideAttribS, ignore, !ignore)
  | insideAttribDIgn => (insideAttribD, ignore, !ignore)
  | insideTag | insideTag0 | insideTag1 | insideTag2 => insideTagStep input stage ignore
  | insideComm0 | insideComm1 | insideComm2 => insideCommentStep input stage ignore
  | unknown | outsideTag => outsideTagStep input stage ignore

end HtmlStage

/-- The `context_t` of a connection, when there is one. -/
inductive Context
  /-- `context_nothing_allowed` -/
  | nothingAllowed
  | fullLink (stage : FullLinkStage)
  | html (stage : HtmlStage) (ignore : Bool)
  deriving DecidableEq, Repr

namespace Context

/-- `context_set_full_link_parser` -/
def setFullLinkParser : Context := fullLink .unknown

/-- `context_set_html_parser` -/
def setHtmlParser : Context := html .unknown true

instance : ContextParser Context where
  parserFnc
    | nothingAllowed, _ => (nothingAllowed, false)
    | fullLink stage, input =>
        let r := stage.evaluate input
        (fullLink r.1, r.2)
    | html stage ignore, input =>
        let r := stage.evaluate input ignore
        (html r.1 r.2.1, r.2.2)

end Context

end RenaProxy
