import RenaProxy.Squid.Cache
import RenaProxy.Lib.Failure
import Mathlib.Data.List.DropRight

/-!
# The rewriter of Squid

Squid writes a URL on each line to a helper. `url_rewriter.py` answers the lines one after the
other, with what `undo_redirect` and `do_redirect` return.

`serve_eq` says that it answers every line for itself, although it remembers what `undo_redirect`
has returned.
-/
namespace RenaProxy.Squid

/-! ## A line -/

/-- What a helper raises. -/
inductive HelperError
  /-- a line without a URL -/
  | keyError
  /-- `split_url` of `None` -/
  | attributeError
  /-- `re.error` -/
  | reError
  deriving DecidableEq, Repr

/-- What a helper has to say about a URL. -/
inductive HelperReply
  | rewriteUrl (newDomain : List UInt8)
  | redirect (newDomain : List UInt8)
  | normal (url : List UInt8) (isSuffix : Bool)
  deriving DecidableEq, Repr

/-- A helper. `reRaises` are the arguments of `undo_redirect` for which `re` raises. -/
structure Helper where
  main : ProxyController
  reRaises : List UInt8 → List UInt8 → Bool
  fallback : List UInt8

/-- `strip` of `bytes`. -/
def bytesStrip (s : List UInt8) : List UInt8 := (s.dropWhile isspace).rdropWhile isspace

/-- `clean_line.split(b' ')`: `CHANNEL`, `URL` and `TRACO` -/
def lineFields (line : List UInt8) : List (List UInt8) := (bytesStrip line).splitOn 32

/-- `data['CHANNEL']` -/
def lineChannel (line : List UInt8) : List UInt8 := (lineFields line).headD []

/-- The group of `transformMatch`, `url=(.*?)$`, where it matches first. -/
def transformGroup (path : List UInt8) : Option (List UInt8) :=
  path.tails.findSome? fun t =>
    if chars "url=" <+: t ∧ reEnd ((t.drop 4).dropWhile (· ≠ 10)) then
      some ((t.drop 4).takeWhile (· ≠ 10))
    else none

/-- `extract_url_from_path` -/
def extractUrlFromPath (path scheme : List UInt8) : Option (List UInt8) :=
  (transformGroup path).map fun url =>
    if find (url.drop 1) (chars "://") ≠ none then url
    else if url.head? = some 58 then scheme ++ url
    else scheme ++ chars "://" ++ url

/-- `do_redirect` -/
def ProxyController.doRedirectFor (c : ProxyController) (transformUrl realSuffix : List UInt8) :
    Bool × List UInt8 :=
  let realSuffix := if realSuffix = [] then c.suffix else realSuffix
  let (schema, transformDomain, query) := splitUrl transformUrl
  let schema := if schema = [] then [104, 116, 116, 112, 58] else schema
  match c.suffixMatch transformDomain with
  | some group => (true, schema ++ [47, 47] ++ (group ++ [46] ++ realSuffix) ++ query)
  | none =>
      if c.model.search c.model.noProxy transformDomain ≠ [] then (false, transformUrl)
      else
        match c.model.search c.model.going transformDomain with
        | e :: _ =>
            let fullDomain := portSub (e.match.sub e.ref transformDomain)
            (true, schema ++ [47, 47] ++ fullDomain ++ [46] ++ realSuffix ++ query)
        | [] => (false, transformUrl)

/-- Without a suffix of its own it is what `doRedirect` says. -/
theorem doRedirectFor_nil (c : ProxyController) (transformUrl : List UInt8) :
    c.doRedirectFor transformUrl [] = c.doRedirect transformUrl := rfl

/-- What is written for a reply. -/
def HelperReply.text (fallback : List UInt8) : HelperReply → List UInt8
  | rewriteUrl newDomain => chars "OK rewrite-url=" ++ 34 :: bytesStrip newDomain ++ [34]
  | redirect newDomain => chars "OK status=302 url=" ++ 34 :: bytesStrip newDomain ++ [34]
  | normal url isSuffix => bytesStrip url ++ if isSuffix then fallback else []

namespace Helper
variable (h : Helper)

/-- `undo_redirect` without its cache. -/
def undoRedirect (uri oldDomain : List UInt8) : Except HelperError (Option (List UInt8)) :=
  if h.reRaises uri oldDomain then .error .reError else .ok (h.main.undoRedirect uri oldDomain)

/-- `main.get_suffix() in domain`: `undo_redirect` is asked. -/
def Asks (url : List UInt8) : Prop := find (splitUrl url).2.1 h.main.suffix ≠ none

instance (url : List UInt8) : Decidable (h.Asks url) := inferInstanceAs (Decidable (_ ≠ _))

/-- `url` as it came, to go on with -/
def normal (url : List UInt8) : HelperReply := .normal url ((splitUrl url).2.1 = h.main.suffix)

/-- What comes of a URL when `undo_redirect` has returned. -/
def afterUndo (url : List UInt8) (ret : Option (List UInt8)) : Except HelperError HelperReply :=
  let (scheme, domain, path) := splitUrl url
  if ret.getD [] ≠ [] then .ok (.rewriteUrl (ret.getD []))
  else if find path (chars "/login") ≠ none then
    match extractUrlFromPath path scheme with
    | none => .error .attributeError
    | some temp =>
        let newDomain := (h.main.doRedirectFor temp domain).2
        .ok (if newDomain ≠ [] then .redirect newDomain else h.normal url)
  else .ok (h.normal url)

/-- The reply to a URL if nothing is remembered. -/
def replyTo (url : List UInt8) : Except HelperError HelperReply :=
  if h.Asks url then h.undoRedirect url (splitUrl url).2.1 >>= h.afterUndo url
  else .ok (h.normal url)

/-- The reply to a line if nothing is remembered. There is none to a blank one. -/
def lineReply (line : List UInt8) : Except HelperError (Option HelperReply) :=
  if bytesStrip line = [] then .ok none
  else
    match (lineFields line)[1]? with
    | none => .error .keyError
    | some url => (h.replyTo url).map some

end Helper

/-! ## One line after the other -/

section Serve
variable (h : Helper)

/-- What `process_line` writes for a reply, or for what it catches. -/
def answerTo : Except HelperError HelperReply → List UInt8
  | .ok reply => reply.text h.fallback ++ [10]
  | .error _ => chars "ERR log=" ++ 34 :: chars "unknown error" ++ [34, 10]

/-- `process_line`: what it writes, unless the input is at its end. `r` is what `randint` says. -/
def processLine (cachedResults : CachedResults) (line : List UInt8) (r : ℕ) :
    Option (List UInt8) × CachedResults :=
  if line = [] then (none, cachedResults)
  else if bytesStrip line = [] then (some [], cachedResults)
  else
    match (lineFields line)[1]? with
    | none => (some (answerTo h (.error .keyError)), cachedResults)
    | some url =>
        if h.Asks url then
          let (ret, cachedResults) :=
            funcWrapper h.undoRedirect cachedResults url (splitUrl url).2.1 r
          (some (answerTo h (ret >>= h.afterUndo url)), cachedResults)
        else (some (answerTo h (.ok (h.normal url))), cachedResults)

/-- `url_rewriter.py`: what it writes for lines, each with what `randint` returns. -/
def serve : CachedResults → List (List UInt8 × ℕ) → List UInt8
  | _, [] => []
  | cachedResults, (line, r) :: lines =>
      let (out, cachedResults) := processLine h cachedResults line r
      match out with
      | none => []
      | some out => out ++ serve cachedResults lines

/-- The lines up to the end of the input. -/
def linesRead (lines : List (List UInt8)) : List (List UInt8) := lines.takeWhile (· ≠ [])

/-- What is written for a line, if nothing is remembered. -/
def lineAnswer (line : List UInt8) : List UInt8 :=
  match h.lineReply line with
  | .ok none => []
  | .ok (some reply) => answerTo h (.ok reply)
  | .error e => answerTo h (.error e)

/-- The key in `cached_results` -/
def cacheKey (url : List UInt8) : List UInt8 := url ++ [33] ++ (splitUrl url).2.1

/-- What `undo_redirect` is asked for a URL. -/
def Helper.undone (url : List UInt8) : Except HelperError (Option (List UInt8)) :=
  h.undoRedirect url (splitUrl url).2.1

/-- What is remembered is right. -/
abbrev Remembers (cachedResults : CachedResults) : Prop :=
  MemoTable.Sound h.undone cacheKey cachedResults

variable {h} {cachedResults : CachedResults} {line url : List UInt8} {r : ℕ}

theorem funcWrapper_spec (S : Remembers h cachedResults) (url : List UInt8) (r : ℕ) :
    (funcWrapper h.undoRedirect cachedResults url (splitUrl url).2.1 r).1 = h.undone url ∧
      Remembers h (funcWrapper h.undoRedirect cachedResults url (splitUrl url).2.1 r).2 := by
  rw [funcWrapper_eq_call]
  exact MemoTable.call_spec S cacheKey_injective (evict_subset r cachedResults) url

/-- A line is answered for itself, whatever is remembered. -/
theorem processLine_spec (S : Remembers h cachedResults) (hline : line ≠ []) (r : ℕ) :
    (processLine h cachedResults line r).1 = some (lineAnswer h line) ∧
      Remembers h (processLine h cachedResults line r).2 := by
  rw [processLine, if_neg hline, lineAnswer, Helper.lineReply]
  by_cases hblank : bytesStrip line = []
  · rw [if_pos hblank, if_pos hblank]
    exact ⟨rfl, S⟩
  · rw [if_neg hblank, if_neg hblank]
    cases hurl : (lineFields line)[1]? with
    | none => exact ⟨rfl, S⟩
    | some url =>
        dsimp only
        rw [Helper.replyTo]
        by_cases hasks : h.Asks url
        · obtain ⟨hret, S'⟩ := funcWrapper_spec S url r
          rw [if_pos hasks, if_pos hasks]
          refine ⟨?_, S'⟩
          rw [hret, Helper.undone]
          cases h.undoRedirect url (splitUrl url).2.1 >>= h.afterUndo url with
          | ok reply => rfl
          | error e => rfl
        · rw [if_neg hasks, if_neg hasks]
          exact ⟨rfl, S⟩

theorem serve_eq_of_remembers (S : Remembers h cachedResults) (lines : List (List UInt8 × ℕ)) :
    serve h cachedResults lines =
      (linesRead (lines.map Prod.fst)).flatMap (lineAnswer h) := by
  induction lines generalizing cachedResults with
  | nil => rfl
  | cons x lines ih =>
      rw [serve, List.map_cons, linesRead, List.takeWhile_cons]
      by_cases hline : x.1 = []
      · simp [processLine, hline]
      · obtain ⟨hout, S'⟩ := processLine_spec S hline x.2
        dsimp only
        rw [hout, if_pos (by simpa using hline), List.flatMap_cons, ← linesRead, ← ih S']

/-- **One line after the other.** Each line up to the end of the input is answered as if it were the
only one. -/
theorem serve_eq (lines : List (List UInt8 × ℕ)) :
    serve h [] lines = (linesRead (lines.map Prod.fst)).flatMap (lineAnswer h) :=
  serve_eq_of_remembers (fun _ _ hmem => absurd hmem List.not_mem_nil) lines

end Serve

end RenaProxy.Squid
