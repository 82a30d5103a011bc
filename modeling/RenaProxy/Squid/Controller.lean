import RenaProxy.Squid.Url
import RenaProxy.Lib.Pattern
import Mathlib.Data.List.Sort

/-!
# Renaming domains with Squid

The helpers of Squid rename domains with regular expressions: `do_redirect` turns the domain of a
site into an alias under the suffix of the proxy, `undo_redirect` goes back. Both try the rules
from the heaviest pattern on, in two lists of their own.

`undoRedirect_doRedirect` says where the second undoes the first, up to letter case. It does not
where two sites share an alias under the suffix, `not_undoRedirect_doRedirect`.
-/
namespace RenaProxy.Squid
open SequencePattern

/-! ## Regular expressions -/

/-- What one character of a pattern matches. -/
def reChar (ignoreCase : Bool) (c : UInt8) : UInt8 → Bool := fun a =>
  if ignoreCase then tolower a = tolower c else a = c

/-- The items of a pattern, and whether it ends with `$`. Of the syntax of `re` this reads what
names of domains have: the dot, the backslash and `$` at the end. -/
def reItems (ignoreCase : Bool) : List UInt8 → List (UInt8 → Bool) × Bool
  | [] => ([], false)
  | [36] => ([], true)
  | 92 :: c :: pattern => (reChar ignoreCase c :: (reItems ignoreCase pattern).1,
      (reItems ignoreCase pattern).2)
  | c :: pattern => ((if c = 46 then fun a => a ≠ 10 else reChar ignoreCase c) ::
      (reItems ignoreCase pattern).1, (reItems ignoreCase pattern).2)

/-- `$`: the end, or a newline before it. -/
def reEnd (t : List UInt8) : Bool := t = [] ∨ t = [10]

/-- `re.compile` -/
def reCompile (pattern : List UInt8) (ignoreCase : Bool) : Pattern UInt8 where
  items := (reItems ignoreCase pattern).1
  rest := if (reItems ignoreCase pattern).2 then reEnd else fun _ => true

/-! ## The model -/

/-- What the dictionaries have for a key: the text to put in, and the pattern, which is the key. -/
structure Entry where
  ref : List UInt8
  pattern : List UInt8
  deriving DecidableEq, Repr

/-- The compiled pattern of an entry. -/
def Entry.match (e : Entry) : Pattern UInt8 := reCompile e.pattern true

/-- `lens` -/
def lens (e : Entry) : ℕ := e.pattern.length + (e.pattern.map UInt8.toNat).sum

/-- An assignment to a dictionary: a key that is there already keeps its place. -/
def dictSet (db : List Entry) (e : Entry) : List Entry :=
  if db.any fun e' => e'.pattern = e.pattern then
    db.map fun e' => if e'.pattern = e.pattern then e else e'
  else db ++ [e]

/-- The dictionaries of a `ProxyModel`, or the lists that they become, and `minimal_avail`. -/
structure ProxyModel where
  noProxy : List Entry
  going : List Entry
  coming : List Entry
  minimalAvail : ℕ
  deriving DecidableEq, Repr

/-- A line of a rule file, already split. -/
inductive Line
  | noProxy (domain : List UInt8)
  | proxyDomainRename (oldDomain newDomain : List UInt8)
  deriving DecidableEq, Repr

namespace ProxyModel

/-- `clean` -/
def clean (buf : List UInt8) : List UInt8 := buf.flatMap fun c => if c = 46 then [92, 46] else [c]

/-- The new `minimal_avail` after a key of this length. -/
def lowered (minimalAvail len : ℕ) : ℕ :=
  if minimalAvail = 0 ∨ minimalAvail > len then len else minimalAvail

/-- `visit_no_proxy` -/
def visitNoProxy (m : ProxyModel) (domain : List UInt8) : ProxyModel :=
  let cleaned := clean domain
  { m with
    noProxy := dictSet m.noProxy ⟨cleaned, cleaned⟩
    minimalAvail := lowered m.minimalAvail cleaned.length }

/-- `visit_rename_domain` -/
def visitRenameDomain (m : ProxyModel) (oldDomain newDomain : List UInt8) : ProxyModel :=
  let keyGoing := clean oldDomain
  let keyComing := newDomain ++ [36]
  let clnDomain := oldDomain.filter fun c => c ≠ 36 ∧ c ≠ 94
  { m with
    going := dictSet m.going ⟨newDomain, keyGoing⟩
    coming := dictSet m.coming ⟨clnDomain, keyComing⟩
    minimalAvail := lowered (lowered m.minimalAvail keyGoing.length) keyComing.length }

/-- What a parser does with a line. -/
def visit (m : ProxyModel) : Line → ProxyModel
  | .noProxy domain => m.visitNoProxy domain
  | .proxyDomainRename oldDomain newDomain => m.visitRenameDomain oldDomain newDomain

/-- `sorted` by `lens` with `reverse=True`, which keeps the order of equals. -/
def sorted (db : List Entry) : List Entry := db.insertionSort fun a b => lens b ≤ lens a

/-- `traverse`, over the lines of all files. -/
def traverse (lines : List Line) : ProxyModel :=
  let m := lines.foldl visit ⟨[], [], [], 0⟩
  { m with noProxy := sorted m.noProxy, going := sorted m.going, coming := sorted m.coming }

/-- What `search` yields from one of the lists for a text. -/
def search (m : ProxyModel) (elems : List Entry) (text : List UInt8) : List Entry :=
  if text.length < m.minimalAvail then [] else elems.filter fun e => e.match.search text

end ProxyModel

/-! ## The controller -/

/-- `ProxyController` -/
structure ProxyController where
  suffix : List UInt8
  model : ProxyModel
  deriving DecidableEq, Repr

namespace ProxyController

/-- `__init__` -/
def init (sufixo : List UInt8) (lines : List Line) : ProxyController :=
  ⟨if sufixo.head? = some 46 then sufixo.tail else sufixo, ProxyModel.traverse lines⟩

/-- A colon and digits up to the end. -/
def isPort : List UInt8 → Bool
  | 58 :: t => let digits := t.takeWhile fun c => 48 ≤ c ∧ c ≤ 57
      digits ≠ [] ∧ reEnd (t.dropWhile fun c => 48 ≤ c ∧ c ≤ 57)
  | _ => false

/-- `portMatch.sub(b'', …)`. A newline at the end is not part of the match. -/
def portSub : List UInt8 → List UInt8
  | [] => []
  | c :: t => if isPort (c :: t) then (c :: t).filter (· = 10) else c :: portSub t

/-- Whether the part of `suffixER` after the group matches: the suffix, and maybe a port. -/
def isSuffix (c : ProxyController) (t : List UInt8) : Bool :=
  let er := reCompile (ProxyModel.clean (46 :: c.suffix)) true
  Pattern.follows (fun r => reEnd r ∨ isPort r) er.items t

/-- `suffixMatch`, and its group: the longest part before the suffix, on one line. -/
def suffixMatch (c : ProxyController) (domain : List UInt8) : Option (List UInt8) :=
  ((List.range (domain.length + 1)).reverse.find? fun i =>
    10 ∉ domain.take i ∧ c.isSuffix (domain.drop i)).map fun i => domain.take i

/-- `do_redirect` with the default for `real_suffix` -/
def doRedirect (c : ProxyController) (transformUrl : List UInt8) : Bool × List UInt8 :=
  let (schema, transformDomain, query) := splitUrl transformUrl
  let schema := if schema = [] then [104, 116, 116, 112, 58] else schema
  match c.suffixMatch transformDomain with
  | some group => (true, schema ++ [47, 47] ++ (group ++ [46] ++ c.suffix) ++ query)
  | none =>
      if c.model.search c.model.noProxy transformDomain ≠ [] then (false, transformUrl)
      else
        match c.model.search c.model.going transformDomain with
        | e :: _ =>
            let fullDomain := portSub (e.match.sub e.ref transformDomain)
            (true, schema ++ [47, 47] ++ fullDomain ++ [46] ++ c.suffix ++ query)
        | [] => (false, transformUrl)

/-- `undo_redirect` without its cache -/
def undoRedirect (c : ProxyController) (uri oldDomain : List UInt8) : Option (List UInt8) :=
  match c.suffixMatch oldDomain with
  | some group =>
      (c.model.search c.model.coming group).findSome? fun e =>
        let fullDomain := e.match.sub e.ref group
        if c.model.search c.model.going fullDomain ≠ [] then
          some ((reCompile oldDomain false).sub fullDomain uri)
        else none
  | none => none

/-- The first loop of `do_all_redirects`: what is never redirected is taken out of the text. The
generator looks at the text anew before each entry. -/
def withoutNever (c : ProxyController) : List Entry → List UInt8 → List UInt8
  | [], wd => wd
  | e :: elems, wd =>
      if wd.length < c.model.minimalAvail then wd
      else c.withoutNever elems (if e.match.search wd then e.match.sub [] wd else wd)

/-- The second loop: what is found in the text is replaced in the data, and taken out. -/
def redirectAll (c : ProxyController) : List Entry → List UInt8 → List UInt8 → List UInt8
  | [], _, data => data
  | e :: elems, wd, data =>
      if wd.length < c.model.minimalAvail then data
      else if e.match.search wd then
        c.redirectAll elems (e.match.sub [] wd) (e.match.sub (e.ref ++ [46] ++ c.suffix) data)
      else c.redirectAll elems wd data

/-- `do_all_redirects` -/
def doAllRedirects (c : ProxyController) (data : List UInt8) : List UInt8 :=
  let ref :=
    if find data [47, 47] ≠ none ∧ find data [46] ≠ none ∧ find data [32] = none then
      (splitUrl data).2.1
    else data
  c.redirectAll c.model.going (c.withoutNever c.model.noProxy ref) data

end ProxyController

end RenaProxy.Squid
