import RenaProxy.Lib.Multimap
import RenaProxy.CString

/-!
# Changing the headers of a message

The adapter visits all headers of a message, notes those of a name from the first one on that is
changed, and then removes the names it noted and adds what it noted. `values_adaptedHeader` says
what becomes of the headers.
-/
namespace RenaProxy.Squid

/-- `libecap::Area`: the memory from `start` on, and `size`. -/
structure Area where
  start : List UInt8
  size : ℕ
  deriving DecidableEq, Repr

namespace Area

def bytes (a : Area) : List UInt8 := a.start.take a.size

/-- A NUL comes behind the last byte and not before. -/
def Terminated (a : Area) : Prop := a.start[a.size]? = some 0 ∧ 0 ∉ a.bytes

/-- `FromTempString` -/
def fromTempString (s : List UInt8) : Area := ⟨s, s.length⟩

@[simp] theorem bytes_fromTempString (s : List UInt8) : (fromTempString s).bytes = s :=
  List.take_length

theorem Terminated.cstr_start {a : Area} (h : a.Terminated) : cstr a.start = a.bytes := by
  obtain ⟨hlt, hget⟩ := List.getElem?_eq_some_iff.mp h.1
  have hsplit : a.start = a.bytes ++ 0 :: a.start.drop (a.size + 1) := by
    rw [bytes, ← hget, List.cons_getElem_drop_succ, List.take_append_drop]
  have hall : ∀ b ∈ a.bytes, (decide (b ≠ 0)) = true := by
    intro b hb
    have hne : b ≠ 0 := fun h0 => h.2 (h0 ▸ hb)
    simpa using hne
  rw [cstr, hsplit, List.takeWhile_append_of_pos hall]
  simp

end Area

/-- A header of a message: its name and its value. -/
abbrev Field := List UInt8 × Area

/-- What is used of `libecap::Header`: `visitEach` meets the fields in their order, `removeAny`
takes out all fields of a name and `add` appends one. -/
structure EcapHeader (H : Type) where
  fields : H → List Field
  removeAny : H → List UInt8 → H
  add : H → List UInt8 → Area → H
  fields_removeAny : ∀ h name, fields (removeAny h name) = (fields h).filter fun f => f.1 ≠ name
  fields_add : ∀ h name value, fields (add h name value) = fields h ++ [(name, value)]

/-- The fields themselves as a header. -/
def EcapHeader.ofList : EcapHeader (List Field) where
  fields := id
  removeAny h name := h.filter fun f => f.1 ≠ name
  add h name value := h ++ [(name, value)]
  fields_removeAny _ _ := rfl
  fields_add _ _ _ := rfl

/-- `HeaderVisitor` -/
structure HeaderVisitor (σ : Type) where
  cheader : Multimap (List UInt8) (List UInt8)
  aheader : Multimap (List UInt8) (List UInt8)
  state : σ

section Visitor
variable {σ H : Type} (E : EcapHeader H)
  (pyinAdaptHeader : σ → List UInt8 → List UInt8 → σ × ℤ × Option (List UInt8))

/-- `adaptHeader`: the new value if it returns true. There may be none, which is an empty one. -/
def adaptHeader (state : σ) (name : List UInt8) (value : Area) : σ × Option (List UInt8) :=
  let (state, retCode, ab) := pyinAdaptHeader state (cstr name) value.bytes
  (state, if retCode > 0 then some (ab.getD []) else none)

namespace HeaderVisitor

/-- `visit` -/
def visit (v : HeaderVisitor σ) (name : List UInt8) (value : Area) : HeaderVisitor σ :=
  match adaptHeader pyinAdaptHeader v.state name value with
  | (state, some ret) =>
      let cheader :=
        if v.cheader.find name = [] then
          let search := v.aheader.find name
          if search ≠ [] then v.cheader.insertRange (search.takeWhile fun e => e.1 = name)
          else v.cheader
        else v.cheader
      { cheader := cheader.insert name ret, aheader := v.aheader.insert name ret, state := state }
  | (state, none) =>
      { cheader :=
          if v.cheader.find name ≠ [] then v.cheader.insert name (cstr value.start) else v.cheader
        aheader := v.aheader.insert name (cstr value.start)
        state := state }

/-- `applyChanges` -/
def applyChanges (v : HeaderVisitor σ) (header : H) : H :=
  let header := v.cheader.entries.foldl (fun header it => E.removeAny header it.1) header
  v.cheader.entries.foldl (fun header it =>
    if it.2 ≠ [] then E.add header it.1 (.fromTempString it.2) else header) header

end HeaderVisitor

/-- What `start` does with the headers: all are visited, then the changes are made. -/
def adaptedHeader (state : σ) (header : H) : H :=
  let hv := (E.fields header).foldl (fun hv f => hv.visit pyinAdaptHeader f.1 f.2)
    (⟨∅, ∅, state⟩ : HeaderVisitor σ)
  hv.applyChanges E header

/-! ## What is asked of it -/

/-- A field, and the new value if it is changed. -/
abbrev Answer := Field × Option (List UInt8)

/-- The answers that the fields get, one after the other. -/
def answers : σ → List Field → List Answer
  | _, [] => []
  | state, f :: fs =>
      let r := adaptHeader pyinAdaptHeader state f.1 f.2
      (f, r.2) :: answers r.1 fs

end Visitor

/-- A field of this name is changed. -/
def changed (as : List Answer) (name : List UInt8) : Bool :=
  as.any fun a => a.1.1 = name ∧ a.2.isSome

/-- The value that is there afterwards, unless the field is removed. -/
def newValue (a : Answer) : Option (List UInt8) :=
  match a.2 with
  | none => some a.1.2.bytes
  | some [] => none
  | some ret => some ret

/-- The values of the fields of this name. -/
def valuesOf (name : List UInt8) (fs : List Field) : List (List UInt8) :=
  (fs.filter fun f => f.1 = name).map fun f => f.2.bytes

/-! ## What is noted -/

section Noted
variable {σ H : Type} {E : EcapHeader H}
  {pyinAdaptHeader : σ → List UInt8 → List UInt8 → σ × ℤ × Option (List UInt8)}
  {v : HeaderVisitor σ} {as : List Answer} {name name' : List UInt8}

/-- The value that is noted for a field, which is empty where it is removed. -/
def noted (a : Answer) : List UInt8 := a.2.getD (cstr a.1.2.start)

/-- What is noted for the fields of a name. -/
def notedFor (as : List Answer) (name : List UInt8) : List (List UInt8) :=
  (as.filter fun a => a.1.1 = name).map noted

theorem notedFor_append (as : List Answer) (a : Answer) (name : List UInt8) :
    notedFor (as ++ [a]) name =
      if a.1.1 = name then notedFor as name ++ [noted a] else notedFor as name := by
  by_cases h : a.1.1 = name
  · simp [notedFor, h]
  · simp [notedFor, h]

theorem notedFor_ne_nil (h : changed as name) : notedFor as name ≠ [] := by
  simp only [changed, List.any_eq_true, decide_eq_true_eq] at h
  obtain ⟨a, ha, hname, -⟩ := h
  simp only [notedFor, ne_eq, List.map_eq_nil_iff, List.filter_eq_nil_iff, not_forall]
  exact ⟨a, ha, by simpa using hname⟩

theorem changed_append (as : List Answer) (a : Answer) (name : List UInt8) :
    changed (as ++ [a]) name = (changed as name || (a.1.1 = name ∧ a.2.isSome : Bool)) := by
  simp [changed]

/-- After these answers all fields are noted in `aheader`, those of changed names in `cheader`. -/
structure Visited (as : List Answer) (v : HeaderVisitor σ) : Prop where
  aheader : ∀ name, v.aheader.values name = notedFor as name
  cheader : ∀ name, v.cheader.values name = if changed as name then notedFor as name else []

theorem Visited.find_eq_nil_iff (V : Visited as v) (name : List UInt8) :
    v.cheader.find name = [] ↔ ¬ changed as name := by
  rw [Multimap.find_eq_nil_iff, V.cheader]
  split_ifs with h
  · exact iff_of_false (notedFor_ne_nil h) (not_not.mpr h)
  · exact iff_of_true rfl h

/-- What is in `cheader` when a changed field comes: all that came before of its name. -/
theorem Visited.values_copied (V : Visited as v) (name name' : List UInt8) :
    (if v.cheader.find name = [] then
        if v.aheader.find name ≠ [] then
          v.cheader.insertRange ((v.aheader.find name).takeWhile fun e => e.1 = name)
        else v.cheader
      else v.cheader).values name' =
      if name = name' then notedFor as name' else v.cheader.values name' := by
  have hcopy : (v.cheader.insertRange (v.aheader.entries.filter fun e => e.1 = name)).values name' =
      if name = name' then v.cheader.values name' ++ notedFor as name'
      else v.cheader.values name' := by
    rw [Multimap.values_insertRange, List.filter_filter]
    by_cases hname : name = name'
    · subst hname
      simp [← V.aheader, Multimap.values]
    · have hnone : (v.aheader.entries.filter fun e =>
          decide (e.1 = name') && decide (e.1 = name)) = [] := by
        rw [List.filter_eq_nil_iff]
        intro e _ h
        simp only [Bool.and_eq_true, decide_eq_true_eq] at h
        exact hname (h.2.symm.trans h.1)
      rw [hnone, if_neg hname, List.map_nil, List.append_nil]
  by_cases hname : name = name'
  · subst hname
    rw [if_pos rfl]
    by_cases hfind : v.cheader.find name = []
    · have hchanged := (V.find_eq_nil_iff name).mp hfind
      rw [if_pos hfind]
      by_cases hall : v.aheader.find name = []
      · have hnil := (Multimap.find_eq_nil_iff _ _).mp hall
        rw [if_neg (not_not.mpr hall), V.cheader, if_neg hchanged, ← V.aheader, hnil]
      · rw [if_pos hall, Multimap.range_find, hcopy, if_pos rfl, V.cheader, if_neg hchanged,
          List.nil_append]
    · have hchanged := not_not.mp ((V.find_eq_nil_iff name).not.mp hfind)
      rw [if_neg hfind, V.cheader, if_pos hchanged]
  · -- the values of the other names are not touched
    rw [if_neg hname] at hcopy ⊢
    split_ifs
    · rw [Multimap.range_find, hcopy]
    · rfl
    · rfl

variable (pyinAdaptHeader) in
/-- **One more field** is noted. -/
theorem Visited.visit (V : Visited as v) (name : List UInt8) (value : Area) :
    Visited (as ++ [((name, value), (adaptHeader pyinAdaptHeader v.state name value).2)])
      (v.visit pyinAdaptHeader name value) := by
  rw [HeaderVisitor.visit]
  generalize adaptHeader pyinAdaptHeader v.state name value = r
  obtain ⟨state, ret⟩ := r
  cases ret with
  | some ret =>
      refine ⟨fun name' => ?_, fun name' => ?_⟩
      · simp only [Multimap.values_insert, V.aheader, notedFor_append]
        rfl
      · simp only [Multimap.values_insert, V.values_copied, notedFor_append, changed_append]
        by_cases hname : name = name'
        · simp [hname, noted]
        · simp [hname, V.cheader]
  | none =>
      refine ⟨fun name' => ?_, fun name' => ?_⟩
      · simp only [Multimap.values_insert, V.aheader, notedFor_append]
        rfl
      · simp only [ne_eq, V.find_eq_nil_iff, not_not, notedFor_append, changed_append]
        by_cases hchanged : changed as name
        · rw [if_pos hchanged, Multimap.values_insert, V.cheader]
          by_cases hname : name = name'
          · subst hname
            simp [hchanged, noted]
          · simp [hname]
        · rw [if_neg hchanged, V.cheader]
          by_cases hname : name = name'
          · subst hname
            simp [hchanged]
          · simp [hname]

variable (pyinAdaptHeader) in
/-- **All fields** are noted. -/
theorem Visited.foldl (V : Visited as v) (fs : List Field) :
    Visited (as ++ answers pyinAdaptHeader v.state fs)
      (fs.foldl (fun hv f => hv.visit pyinAdaptHeader f.1 f.2) v) := by
  induction fs generalizing v as with
  | nil => simpa [answers] using V
  | cons f fs ih =>
      have hstate : (v.visit pyinAdaptHeader f.1 f.2).state =
          (adaptHeader pyinAdaptHeader v.state f.1 f.2).1 := by
        rw [HeaderVisitor.visit]
        split <;> simp [*]
      have hrest := ih (V.visit pyinAdaptHeader f.1 f.2)
      rwa [hstate, List.append_assoc, List.singleton_append] at hrest

theorem visited_start (state : σ) : Visited [] (⟨∅, ∅, state⟩ : HeaderVisitor σ) :=
  ⟨fun _ => rfl, fun _ => rfl⟩

/-! ## What is applied -/

theorem fields_foldl_removeAny (names : List (List UInt8 × List UInt8)) (header : H) :
    E.fields (names.foldl (fun header it => E.removeAny header it.1) header) =
      (E.fields header).filter fun f => ∀ it ∈ names, f.1 ≠ it.1 := by
  induction names generalizing header with
  | nil => simp
  | cons it names ih =>
      rw [List.foldl_cons, ih, E.fields_removeAny, List.filter_filter]
      refine List.filter_congr fun f _ => ?_
      rw [Bool.eq_iff_iff]
      simp [and_comm]

theorem fields_foldl_add (its : List (List UInt8 × List UInt8)) (header : H) :
    E.fields (its.foldl (fun header it =>
        if it.2 ≠ [] then E.add header it.1 (.fromTempString it.2) else header) header) =
      E.fields header ++
        (its.filter fun it => it.2 ≠ []).map fun it => (it.1, .fromTempString it.2) := by
  induction its generalizing header with
  | nil => simp
  | cons it its ih =>
      rw [List.foldl_cons, ih]
      by_cases h : it.2 = []
      · simp [h]
      · simp [h, E.fields_add]

/-- The fields afterwards: those of other names, then what was noted. -/
theorem fields_applyChanges (v : HeaderVisitor σ) (header : H) :
    E.fields (v.applyChanges E header) =
      ((E.fields header).filter fun f => ∀ it ∈ v.cheader.entries, f.1 ≠ it.1) ++
        (v.cheader.entries.filter fun it => it.2 ≠ []).map
          fun it => (it.1, .fromTempString it.2) := by
  rw [HeaderVisitor.applyChanges, fields_foldl_add, fields_foldl_removeAny]

theorem Visited.exists_mem_iff (V : Visited as v) (name : List UInt8) :
    (∃ it ∈ v.cheader.entries, it.1 = name) ↔ changed as name := by
  rw [← not_iff_not, ← V.find_eq_nil_iff, Multimap.find, List.dropWhile_eq_nil_iff]
  simp only [not_exists, not_and, decide_eq_true_eq, ne_eq]

/-- Fields of names that are not changed are not touched. -/
theorem Visited.filter_fields (V : Visited as v) (header : H) :
    ((E.fields (v.applyChanges E header)).filter fun f => ¬ changed as f.1) =
      (E.fields header).filter fun f => ¬ changed as f.1 := by
  have hadded : (((v.cheader.entries.filter fun it => it.2 ≠ []).map fun it =>
      ((it.1, Area.fromTempString it.2) : Field)).filter fun f => ¬ changed as f.1) = [] := by
    rw [List.filter_eq_nil_iff]
    intro f hf
    obtain ⟨it, hit, rfl⟩ := List.mem_map.mp hf
    have hmem := (V.exists_mem_iff it.1).mp ⟨it, List.mem_of_mem_filter hit, rfl⟩
    simp [hmem]
  rw [fields_applyChanges, List.filter_append, hadded, List.append_nil, List.filter_filter]
  refine List.filter_congr fun f _ => ?_
  rw [Bool.eq_iff_iff, Bool.and_eq_true, decide_eq_true_eq, decide_eq_true_eq, and_iff_left_iff_imp]
  intro hchanged it hit heq
  exact hchanged ((V.exists_mem_iff f.1).mp ⟨it, hit, heq.symm⟩)

/-- Fields of a changed name are those that were noted, unless they are empty. -/
theorem Visited.valuesOf_fields (V : Visited as v) (header : H) (h : changed as name) :
    valuesOf name (E.fields (v.applyChanges E header)) =
      (notedFor as name).filter fun value => value ≠ [] := by
  have hremoved : (((E.fields header).filter fun f => ∀ it ∈ v.cheader.entries, f.1 ≠ it.1).filter
      fun f => f.1 = name) = [] := by
    obtain ⟨it, hit, hname⟩ := (V.exists_mem_iff name).mpr h
    rw [List.filter_filter, List.filter_eq_nil_iff]
    intro f _ hf
    simp only [Bool.and_eq_true, decide_eq_true_eq] at hf
    exact hf.2 it hit (hf.1.trans hname.symm)
  have hnoted := V.cheader name
  rw [if_pos h] at hnoted
  rw [valuesOf, fields_applyChanges, List.filter_append, hremoved, List.nil_append, ← hnoted,
    Multimap.values, List.filter_map, List.filter_map, List.map_map, List.filter_filter,
    List.filter_filter]
  have hmap : ((fun f : Field => f.2.bytes) ∘ fun it : List UInt8 × List UInt8 =>
      (it.1, Area.fromTempString it.2)) = Prod.snd :=
    funext fun it => Area.bytes_fromTempString it.2
  rw [hmap]
  exact congrArg _ (List.filter_congr fun it _ => Bool.and_comm _ _)

variable (pyinAdaptHeader) in
/-- The answers are about the fields. -/
theorem map_fst_answers (state : σ) (fs : List Field) :
    (answers pyinAdaptHeader state fs).map Prod.fst = fs := by
  induction fs generalizing state with
  | nil => rfl
  | cons f fs ih => rw [answers, List.map_cons, ih]

/-- Only what is removed is noted as empty. -/
theorem newValue_eq (a : Answer) (hterminated : a.1.2.Terminated) (hne : a.1.2.bytes ≠ []) :
    newValue a = if noted a = [] then none else some (noted a) := by
  obtain ⟨f, ret⟩ := a
  rw [newValue, noted, hterminated.cstr_start]
  cases ret with
  | none => simp [hne]
  | some ret => cases ret <;> simp

theorem filter_map_noted {as : List Answer}
    (h : ∀ a ∈ as, newValue a = if noted a = [] then none else some (noted a)) :
    ((as.map noted).filter fun value => value ≠ []) = as.filterMap newValue := by
  induction as with
  | nil => rfl
  | cons a as ih =>
      have hrest := ih fun b hb => h b (List.mem_cons_of_mem a hb)
      rw [List.map_cons, List.filterMap_cons, h a List.mem_cons_self, ← hrest]
      by_cases hnil : noted a = []
      · simp [hnil]
      · simp [hnil]

end Noted

/-- **What becomes of the headers**: those of a name none of which is changed stay as they are; of a
name with a changed one, each stays, has the new value or is gone, and they keep their order. -/
theorem values_adaptedHeader {σ H : Type} (E : EcapHeader H)
    (pyinAdaptHeader : σ → List UInt8 → List UInt8 → σ × ℤ × Option (List UInt8)) (state : σ)
    (header : H) (hvalues : ∀ f ∈ E.fields header, f.2.Terminated ∧ f.2.bytes ≠ []) :
    let as := answers pyinAdaptHeader state (E.fields header)
    let result := E.fields (adaptedHeader E pyinAdaptHeader state header)
    (result.filter fun f => ¬ changed as f.1) =
        ((E.fields header).filter fun f => ¬ changed as f.1) ∧
      ∀ name, changed as name →
        valuesOf name result = (as.filter fun a => a.1.1 = name).filterMap newValue := by
  intro as result
  have V : Visited as _ := (visited_start state).foldl pyinAdaptHeader (E.fields header)
  refine ⟨V.filter_fields header, fun name hname => (V.valuesOf_fields header hname).trans ?_⟩
  refine filter_map_noted fun a ha => ?_
  have hfield : a.1 ∈ E.fields header := by
    rw [← map_fst_answers pyinAdaptHeader state (E.fields header)]
    exact List.mem_map_of_mem (List.mem_of_mem_filter ha)
  exact newValue_eq a (hvalues a.1 hfield).1 (hvalues a.1 hfield).2

/-- Of three fields `a` the second is changed to `y`, between them is `b`. -/
theorem values_adaptedHeader_third :
    let pyin (n : ℕ) (_ _ : List UInt8) : ℕ × ℤ × Option (List UInt8) :=
      (n + 1, if n = 2 then (1, some [121]) else (0, none))
    let header : List Field :=
      [([97], ⟨[120, 0], 1⟩), ([98], ⟨[120, 0], 1⟩), ([97], ⟨[120, 0], 1⟩), ([97], ⟨[122, 0], 1⟩)]
    let result := adaptedHeader .ofList pyin 0 header
    (result.filter fun f => ¬ changed (answers pyin 0 header) f.1) = [([98], ⟨[120, 0], 1⟩)] ∧
      valuesOf [97] result = [[120], [121], [122]] := by
  intro pyin header result
  obtain ⟨hothers, hvalues⟩ := values_adaptedHeader .ofList pyin 0 header (by
    intro f hf
    simp only [EcapHeader.ofList, id, header, List.mem_cons, List.not_mem_nil, or_false] at hf
    rcases hf with rfl | rfl | rfl | rfl <;> exact ⟨⟨rfl, by decide⟩, by decide⟩)
  exact ⟨hothers.trans (by decide), (hvalues [97] (by decide)).trans (by decide)⟩

end RenaProxy.Squid
