import RenaProxy.Lib.Delimited

/-!
# Rewriting back

The replacements that a rewriting puts out may be keys of another lexicon, whose
replacements are the first keys. `reference_render` says when the second rewriting finds
just these keys: wherever a key of the second lexicon stands in what was put out, it is
the end of a replacement. What it puts out is the source again, with the keys as the
lexicon spells them.
-/
namespace StreamMatcher
open StreamRewriting

universe u
variable {α : Type u} {f : α → α} {repl : List α → List α} {ps : List (Piece α)} {t : List α}
  {b e : ℕ}

/-- The replacement of a swapped key stands from `b` to `e` in what the pieces put out. -/
def Placed (repl : List α → List α) (ps : List (Piece α)) (b e : ℕ) : Prop :=
  ∃ before k after, ps = before ++ .swap k :: after ∧ (render repl before).length = b ∧
    b + (repl k).length = e

/-- A replacement is that of the first piece or stands in what the others put out. -/
theorem placed_cons {p : Piece α} (h : Placed repl (p :: ps) b e) :
    (b = 0 ∧ e = (p.text repl).length) ∨
      ∃ b' e', b = (p.text repl).length + b' ∧ e = (p.text repl).length + e' ∧
        Placed repl ps b' e' := by
  obtain ⟨before, k, after, hps, rfl, rfl⟩ := h
  cases before with
  | nil =>
      obtain ⟨rfl, rfl⟩ := List.cons.inj hps
      exact .inl ⟨rfl, Nat.zero_add _⟩
  | cons p before =>
      obtain ⟨rfl, rfl⟩ := List.cons.inj hps
      refine .inr ⟨_, _, ?_, ?_, before, k, after, rfl, rfl, rfl⟩
      · rw [render_cons, List.length_append]
      · rw [render_cons, List.length_append, Nat.add_assoc]

/-! ## The second rewriting -/

section Back
variable {L : Lexicon α} {back : List α → List α}

/-- Wherever a key stands in what the pieces put out, it is the end of a replacement. -/
def EndsPlaced (L : Lexicon α) (f : α → α) (repl : List α → List α) (ps : List (Piece α)) : Prop :=
  ∀ b e, Occurs L ((render repl ps).map f) b e → ∃ b' ≤ b, Placed repl ps b' e

section Cons
variable {p : Piece α}

theorem drop_render_cons (p : Piece α) (ps : List (Piece α)) :
    (render repl (p :: ps)).drop (p.text repl).length = render repl ps := by
  rw [render_cons, List.drop_left' rfl]

theorem take_render_cons (p : Piece α) (ps : List (Piece α)) :
    (render repl (p :: ps)).take (p.text repl).length = p.text repl := by
  rw [render_cons, List.take_left' rfl]

theorem EndsPlaced.tail (h : EndsPlaced L f repl (p :: ps)) : EndsPlaced L f repl ps := by
  intro b e hocc
  rw [← drop_render_cons p ps, List.map_drop, occurs_drop] at hocc
  have hbe := hocc.1
  obtain ⟨b', hb', hp⟩ := h _ _ hocc
  rcases placed_cons hp with ⟨-, he⟩ | ⟨b₀, e₀, rfl, he, hp₀⟩
  · omega
  · obtain rfl := Nat.add_left_cancel he
    exact ⟨b₀, Nat.le_of_add_le_add_left hb', hp₀⟩

theorem EndsPlaced.boundary (h : EndsPlaced L f repl (p :: ps)) :
    Boundary L ((render repl (p :: ps)).map f) (p.text repl).length := by
  intro b e hocc
  obtain ⟨b', hb', hp⟩ := h b e hocc
  rcases placed_cons hp with ⟨-, he⟩ | ⟨b₀, e₀, rfl, -⟩
  · exact .inl he.le
  · exact .inr (by omega)

/-- Keys end nowhere in a replacement but at its end. -/
theorem EndsPlaced.eq_length (h : EndsPlaced L f repl (p :: ps))
    (hocc : Occurs L ((p.text repl).map f) b e) : e = (p.text repl).length := by
  rw [← take_render_cons p ps, List.map_take, occurs_take] at hocc
  have hbe := hocc.1.1
  obtain ⟨b', hb', hp⟩ := h b e hocc.1
  rcases placed_cons hp with ⟨-, he⟩ | ⟨b₀, e₀, rfl, -⟩
  · exact he
  · omega

end Cons

/-- **Rewriting what was put out.** If every replacement is a key that is replaced by the
key it stands for, and no key stands elsewhere than at the end of a replacement, the
keys come back. -/
theorem reference_render
    (hkeys : ∀ k, Piece.swap k ∈ ps → L.key ((repl k).map f) ∧ back ((repl k).map f) = k)
    (hends : EndsPlaced L f repl ps) : reference L f back (render repl ps) = render id ps := by
  induction ps with
  | nil => rfl
  | cons p ps ih =>
      have hrest := ih (fun k hk => hkeys k (List.mem_cons_of_mem _ hk)) hends.tail
      have hfirst : reference L f back (p.text repl) = p.text id := by
        cases p with
        | copy a =>
            apply reference_eq_self
            intro b e hocc
            have hlen : e ≤ 1 := hocc.2.1
            have := hocc.two_le
            omega
        | swap k =>
            obtain ⟨hkey, hback⟩ := hkeys k List.mem_cons_self
            have htwo := L.two_le_of_key hkey
            have hlen : ((repl k).map f).length = (repl k).length := List.length_map ..
            have hocc : Occurs L ((repl k).map f) 0 (repl k).length := by
              refine ⟨by omega, hlen.ge, ?_⟩
              rw [slice, List.take_of_length_le hlen.le, List.drop_zero]
              exact hkey
            exact (reference_eq_repl hocc fun b e h => hends.eq_length h).trans hback
      have hle : (p.text repl).length ≤ (render repl (p :: ps)).length := by
        rw [render_cons, List.length_append]
        exact Nat.le_add_right _ _
      rw [hends.boundary.reference_eq hle, take_render_cons, drop_render_cons, hfirst, hrest,
        render_cons]

end Back

/-! ## The source -/

/-- With the keys themselves put out, the pieces spell their source up to `f`. -/
theorem map_render_id (hf : ∀ a, f (f a) = f a) (h : Reads f ps t) :
    (render id ps).map f = t.map f := by
  induction ps generalizing t with
  | nil => rw [reads_nil.mp h, render_nil]
  | cons p ps ih =>
      cases p with
      | copy a =>
          obtain ⟨t', rfl, h⟩ := h
          rw [render_cons, Piece.text, List.map_append, ih h]
          rfl
      | swap k =>
          obtain ⟨x, t', rfl, rfl, h⟩ := h
          rw [render_cons, Piece.text, List.map_append, ih h, List.map_append, id, List.map_map,
            Function.comp_def]
          simp only [hf]

/-- They spell a source that is its own image. -/
theorem render_id_eq (h : Reads f ps t) (ht : t.map f = t) : render id ps = t := by
  induction ps generalizing t with
  | nil => rw [reads_nil.mp h, render_nil]
  | cons p ps ih =>
      cases p with
      | copy a =>
          obtain ⟨t', rfl, h⟩ := h
          rw [List.map_cons, List.cons.injEq] at ht
          rw [render_cons, Piece.text, ih h ht.2]
          rfl
      | swap k =>
          obtain ⟨x, t', rfl, rfl, h⟩ := h
          rw [List.map_append] at ht
          obtain ⟨hx, ht⟩ := List.append_inj ht (List.length_map ..)
          rw [render_cons, Piece.text, ih h ht, id, hx]

end StreamMatcher
