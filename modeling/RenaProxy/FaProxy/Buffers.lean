import RenaProxy.FaProxy.Head
import RenaProxy.Lib.Failure
import Mathlib.Data.List.Forall2

/-!
# One text in different buffers

Two runs of the loader over one text differ where a line end is counted in one of them and
not in the other. Here they are compared along the text: where it has no line end, after the
end of the head, and where line ends lead to that end in both.
-/
namespace RenaProxy.FaProxy
open StreamTransducer

/-! ## The head and what is passed on -/

namespace Reading
variable {memory : List (List UInt8) → List UInt8} {r r' s t : Reading} {p q : UInt8 × ℕ}
  {out : List UInt8}

/-- Before the first line has ended nothing is looked up, and what is looked up has no key with
a line end. -/
structure Sound (r : Reading) : Prop where
  avoids : ∀ c, Head.IsSep c → r.dbLookup.Avoids c
  fresh : r.head.earlier = [] → r.holding = [] ∧ r.dbLookup.lookups = []

theorem sound_init {rules : List Rule} (hrules : ∀ r ∈ rules, r.Words) (suffix : List UInt8) :
    (init (databaseSetUp suffix rules) .server).Sound :=
  ⟨fun _ => avoids_handler hrules suffix, fun _ => ⟨rfl, rfl⟩⟩

/-- What passing a byte on does to the reading. -/
theorem pass_cases {c : UInt8} (h : r.pass c = .ok (r', out)) : r'.head = r.head ∧
    ((r.lookup c = none ∧ r' = r) ∨ ∃ res, r.lookup c = some (r'.dbLookup, res)) := by
  rw [pass] at h
  cases hlookup : r.lookup c with
  | none =>
      rw [hlookup] at h
      obtain ⟨rfl, -⟩ := Prod.ext_iff.mp (Except.ok.inj h)
      exact ⟨rfl, .inl ⟨rfl, rfl⟩⟩
  | some found =>
      obtain ⟨db, res⟩ := found
      rw [hlookup] at h
      suffices hok : r'.head = r.head ∧ r'.dbLookup = db from ⟨hok.1, .inr ⟨res, by rw [hok.2]⟩⟩
      cases res with
      | notHold =>
          obtain ⟨rfl, -⟩ := Prod.ext_iff.mp (Except.ok.inj h)
          exact ⟨rfl, rfl⟩
      | feedMeAndHold =>
          obtain ⟨rfl, -⟩ := Prod.ext_iff.mp (Except.ok.inj h)
          exact ⟨rfl, rfl⟩
      | transformOk expanded consumed =>
          dsimp only at h
          split_ifs at h
          obtain ⟨rfl, -⟩ := Prod.ext_iff.mp (Except.ok.inj h)
          exact ⟨rfl, rfl⟩

theorem loadByte_head (h : r.loadByte memory p = .ok (r', out)) :
    r'.head = r.head.read memory p := (pass_cases h).1

theorem lookup_cases {c : UInt8} {db : DiLookup} {res : LookupResult}
    (h : r.lookup c = some (db, res)) :
    r.head.earlier ≠ [] ∧ (db = r.dbLookup ∨ db = (databaseTransformLookup r.dbLookup c).1) := by
  rw [lookup] at h
  split_ifs at h with hlines hinteresting
  · refine ⟨?_, .inr ?_⟩
    · intro hnil
      rw [Head.nLines, hnil] at hlines
      exact absurd hlines (by decide)
    · rw [Option.some.inj h]
  · refine ⟨?_, .inl ?_⟩
    · intro hnil
      rw [Head.nLines, hnil] at hlines
      exact absurd hlines (by decide)
    · exact (Prod.ext_iff.mp (Option.some.inj h)).1.symm

theorem earlier_read (h : Head) (p : UInt8 × ℕ) (hnil : (h.read memory p).earlier = []) :
    h.earlier = [] := by
  rw [Head.read] at hnil
  split_ifs at hnil
  · rw [Head.lineEnd, Head.addLine] at hnil
    dsimp only at hnil
    split_ifs at hnil
    · exact hnil
    · exact absurd hnil (by simp)
  · exact hnil
  · exact hnil
  · exact hnil

theorem Sound.loadByte (S : r.Sound) (h : r.loadByte memory p = .ok (r', out)) : r'.Sound := by
  obtain ⟨hhead, ⟨-, rfl⟩ | ⟨res, hlookup⟩⟩ := pass_cases h
  · exact ⟨S.avoids, fun hnil => S.fresh (earlier_read r.head p hnil)⟩
  · obtain ⟨hlines, hdb⟩ := lookup_cases hlookup
    refine ⟨?_, fun hnil => absurd (hhead ▸ hnil) hlines⟩
    intro c hc
    rcases hdb with hdb | hdb
    · exact hdb ▸ S.avoids c hc
    · exact hdb ▸ (S.avoids c hc).lookup _

theorem Sound.run (S : r.Sound) {ps : List (UInt8 × ℕ)}
    (h : run (Reading.loadByte memory) r ps = .ok (r', out)) : r'.Sound :=
  run_induction (fun _ r' _ => r'.Sound) S (fun _ _ _ _ _ _ S' h' => S'.loadByte h') h

theorem run_head {ps : List (UInt8 × ℕ)} (h : run (loadByte memory) r ps = .ok (r', out)) :
    r'.head = r.head.reads memory ps := by
  apply run_induction (fun ps r' _ => r'.head = r.head.reads memory ps) rfl _ h
  intro ps r₁ _ p r₂ _ hhead hstep
  rw [loadByte_head hstep, hhead, Head.reads_append]
  rfl

/-- Readings that were read alike. Where nothing is looked up any more, it does not matter what
was begun. -/
structure Alike (s t : Reading) : Prop where
  head : s.head.Same t.head
  holding : s.holding = t.holding
  dbLookup : s.head.stage ≠ .body ∨ s.head.interesting → s.dbLookup = t.dbLookup

theorem Alike.nLines (A : Alike s t) : s.head.nLines = t.head.nLines := by
  rw [Head.nLines, Head.nLines, A.head.earlier]

/-- A byte that is not looked up is let through after what is held. -/
theorem pass_boring {c : UInt8} (hlines : r.head.nLines > 1) (hboring : r.head.interesting = false) :
    r.pass c = .ok (⟨r.head, [], r.dbLookup⟩, r.holding ++ [c]) := by
  rw [pass, lookup, if_pos hlines, hboring]
  rfl

theorem Alike.pass (A : Alike s t) (c : UInt8) : Agree Alike (s.pass c) (t.pass c) := by
  by_cases hlines : s.head.nLines > 1
  · cases hinteresting : s.head.interesting with
    | false =>
        rw [pass_boring hlines hinteresting,
          pass_boring (A.nLines ▸ hlines) (A.head.interesting ▸ hinteresting), ← A.holding]
        exact .ok ⟨A.head, rfl, A.dbLookup⟩
    | true =>
        have hdb : s.dbLookup = t.dbLookup := A.dbLookup (.inr hinteresting)
        have hlookup : s.lookup c = t.lookup c := by
          rw [lookup, lookup, ← A.nLines, ← A.head.interesting, hdb]
        rw [Reading.pass, Reading.pass, ← hlookup, ← A.holding]
        split
        · exact .ok A
        · exact .ok ⟨A.head, rfl, fun _ => rfl⟩
        · exact .ok ⟨A.head, rfl, fun _ => rfl⟩
        · split_ifs
          · exact .error _
          · exact .ok ⟨A.head, rfl, fun _ => rfl⟩
  · have hnone : ∀ r : Reading, ¬ r.head.nLines > 1 → r.pass c = .ok (r, [c]) := by
      intro r hr
      rw [Reading.pass, lookup, if_neg hr]
    rw [hnone s hlines, hnone t (A.nLines ▸ hlines)]
    exact .ok A

variable (memory) in
/-- A byte that makes heads the same again. -/
theorem Alike.loadByte (A : Alike s t) (hpq : p.1 = q.1)
    (hsame : (s.head.read memory p).Same (t.head.read memory q)) :
    Agree Alike (s.loadByte memory p) (t.loadByte memory q) := by
  have A' : Alike { s with head := s.head.read memory p } { t with head := t.head.read memory q } := by
    refine ⟨hsame, A.holding, ?_⟩
    intro h
    by_cases hstage : s.head.stage = .body
    · have hread : s.head.read memory p = s.head := Head.read_of_body hstage
      exact A.dbLookup (hread ▸ h)
    · exact A.dbLookup (.inl hstage)
  rw [Reading.loadByte, Reading.loadByte, ← hpq]
  exact A'.pass p.1

variable {ps qs : List (UInt8 × ℕ)}

theorem forall₂_of_map_eq (h : ps.map Prod.fst = qs.map Prod.fst) :
    List.Forall₂ (fun p q : UInt8 × ℕ => p.1 = q.1) ps qs := by
  have hbytes : List.Forall₂ (· = ·) (ps.map Prod.fst) (qs.map Prod.fst) :=
    List.forall₂_eq_eq_eq ▸ h
  exact List.forall₂_map_right_iff.mp (List.forall₂_map_left_iff.mp hbytes)

/-- The same text without line ends. -/
theorem Alike.run_of_not_isSep (A : Alike s t) (h : ps.map Prod.fst = qs.map Prod.fst)
    (hps : ∀ p ∈ ps, ¬ Head.IsSep p.1) :
    Agree Alike (run (Reading.loadByte memory) s ps) (run (Reading.loadByte memory) t qs) := by
  have hboth : List.Forall₂ (fun p q : UInt8 × ℕ => ¬ Head.IsSep p.1 ∧ p.1 = q.1) ps qs :=
    (List.forall₂_and_left _ _).mpr ⟨hps, forall₂_of_map_eq h⟩
  apply Agree.run _ A hboth
  intro s t p q A hpq
  exact A.loadByte memory hpq.2 (A.head.read_of_not_isSep hpq.1 hpq.2)

/-- The same text after the end of the head. -/
theorem Alike.run_of_body (A : Alike s t) (hstage : s.head.stage = .body)
    (h : ps.map Prod.fst = qs.map Prod.fst) :
    Agree Alike (run (Reading.loadByte memory) s ps) (run (Reading.loadByte memory) t qs) := by
  have hrun := Agree.run (R := fun s t => Alike s t ∧ s.head.stage = .body)
    (f := Reading.loadByte memory) (g := Reading.loadByte memory) ?_ ⟨A, hstage⟩
    (forall₂_of_map_eq h)
  · exact hrun.mono fun _ _ h => h.1
  · intro s t p q A hpq
    have hs : s.head.read memory p = s.head := Head.read_of_body A.2
    have ht : t.head.read memory q = t.head := Head.read_of_body (A.1.head.stage ▸ A.2)
    have hstep := A.1.loadByte memory hpq (by rw [hs, ht]; exact A.1.head)
    have hbody : ∀ s' out, s.loadByte memory p = .ok (s', out) → s'.head.stage = .body := by
      intro s' out h
      rw [loadByte_head h, hs]
      exact A.2
    exact (hstep.and hbody fun _ _ _ => trivial).mono fun _ _ h => ⟨h.1, h.2.1⟩

variable (memory) in
theorem Sound.read (S : r.Sound) (p : UInt8 × ℕ) :
    Sound { r with head := r.head.read memory p } :=
  ⟨S.avoids, fun hnil => S.fresh (earlier_read r.head p hnil)⟩

/-- A line end lets go of everything that is held. -/
theorem Sound.pass_isSep (S : r.Sound) {c : UInt8} (hc : Head.IsSep c) : ∃ db,
    r.pass c = .ok (⟨r.head, [], db⟩, r.holding ++ [c]) ∧ db.cleared = r.dbLookup.cleared ∧
      (r.head.interesting → db = r.dbLookup.cleared) := by
  by_cases hlines : r.head.nLines > 1
  · cases hinteresting : r.head.interesting with
    | false => exact ⟨_, pass_boring hlines hinteresting, rfl, fun h => nomatch h⟩
    | true =>
        refine ⟨r.dbLookup.cleared, ?_, rfl, fun _ => rfl⟩
        rw [pass, lookup, if_pos hlines, if_pos hinteresting,
          (S.avoids c hc).lookup_self (tolower_of_isSep hc) (schar_of_isSep hc)]
  · have hnil : r.head.earlier = [] := by
      rw [Head.nLines] at hlines
      exact List.length_eq_zero_iff.mp (by omega)
    obtain ⟨hholding, hlookups⟩ := S.fresh hnil
    refine ⟨r.dbLookup, ?_, rfl, ?_⟩
    · have hnone : r.lookup c = none := by rw [lookup, if_neg hlines]
      rw [pass, hnone, hholding, List.nil_append, ← hholding]
    · intro _
      rw [DiLookup.cleared, ← hlookups]

variable (memory) in
/-- Line ends let go of everything that is held, and nothing begins at them. -/
theorem Sound.run_isSep {ps : List (UInt8 × ℕ)} (S : r.Sound)
    (hps : ∀ q ∈ p :: ps, Head.IsSep q.1) : ∃ db,
    StreamTransducer.run (Reading.loadByte memory) r (p :: ps) =
      .ok (⟨r.head.reads memory (p :: ps), [], db⟩, r.holding ++ (p :: ps).map Prod.fst) ∧
    db.cleared = r.dbLookup.cleared ∧
      ((r.head.reads memory (p :: ps)).interesting → db = r.dbLookup.cleared) := by
  induction ps generalizing r p with
  | nil =>
      obtain ⟨db, hpass, hdb⟩ := (S.read memory p).pass_isSep (hps p List.mem_cons_self)
      exact ⟨db, run_singleton_of_ok hpass, hdb⟩
  | cons q ps ih =>
      obtain ⟨db, hpass, hcleared, -⟩ :=
        (S.read memory p).pass_isSep (hps p List.mem_cons_self)
      obtain ⟨db', hrun, hcleared', hdb'⟩ := ih (S.loadByte hpass)
        fun q' hq' => hps q' (List.mem_cons_of_mem p hq')
      have hone : StreamTransducer.run (Reading.loadByte memory) r [p] = _ := run_singleton_of_ok hpass
      have hboth := run_append_of_ok hone hrun
      refine ⟨db', hboth.trans ?_, hcleared'.trans hcleared, fun h => (hdb' h).trans hcleared⟩
      simp

/-- The same line ends where the head ends in both. -/
theorem Alike.run_of_isSep (A : Alike s t) (hs : s.Sound) (ht : t.Sound) (hstage : s.head.stage ≠ .body)
    (hbytes : ps.map Prod.fst = qs.map Prod.fst) (hps : ∀ p ∈ ps, Head.IsSep p.1)
    (hsame : (s.head.reads memory ps).Same (t.head.reads memory qs))
    (hbody : (s.head.reads memory ps).stage = .body) :
    Agree Alike (run (Reading.loadByte memory) s ps) (run (Reading.loadByte memory) t qs) := by
  have hqs : ∀ q ∈ qs, Head.IsSep q.1 := by
    intro q hq
    have hmem : q.1 ∈ ps.map Prod.fst := hbytes ▸ List.mem_map_of_mem hq
    obtain ⟨p, hp, heq⟩ := List.mem_map.mp hmem
    exact heq ▸ hps p hp
  cases ps with
  | nil =>
      obtain rfl : qs = [] := List.map_eq_nil_iff.mp hbytes.symm
      exact .ok A
  | cons p ps =>
      cases qs with
      | nil => cases hbytes
      | cons q qs =>
          obtain ⟨db, hrun, -, hcleared⟩ := hs.run_isSep memory hps
          obtain ⟨db', hrun', -, hcleared'⟩ := ht.run_isSep memory hqs
          rw [hrun, hrun', hbytes, A.holding]
          refine .ok ⟨hsame, rfl, ?_⟩
          intro hor
          have hinteresting := hor.resolve_left (not_not.mpr hbody)
          rw [hcleared hinteresting, hcleared' (hsame.interesting ▸ hinteresting),
            A.dbLookup (.inl hstage)]

theorem tracked (hs : s.Sound) (ht : t.Sound)
    (h : Agree Alike (run (Reading.loadByte memory) s ps) (run (Reading.loadByte memory) t qs)) :
    Agree (fun s' t' => Alike s' t' ∧ (s'.Sound ∧ s'.head = s.head.reads memory ps) ∧
        t'.Sound ∧ t'.head = t.head.reads memory qs)
      (run (Reading.loadByte memory) s ps) (run (Reading.loadByte memory) t qs) :=
  h.and (fun _ _ hrun => ⟨hs.run hrun, run_head hrun⟩) fun _ _ hrun => ⟨ht.run hrun, run_head hrun⟩

end Reading

end RenaProxy.FaProxy
