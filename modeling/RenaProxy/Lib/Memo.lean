import Mathlib.Data.List.Basic
import Mathlib.Data.Set.Function

/-!
# Remembered results

A table remembers what a function has returned, under a key of the argument. It may drop what it
likes before it remembers something new. If different arguments have different keys, `calls_eq`
says that nobody notices.
-/
namespace MemoTable

universe u
variable {ε α κ β : Type u} [BEq κ]

/-- What is remembered is returned. Otherwise the function is called, and what it returns is
remembered after the table has dropped something; an error is not. -/
def call (f : α → Except ε β) (key : α → κ) (drop : List (κ × β) → List (κ × β))
    (table : List (κ × β)) (a : α) : Except ε β × List (κ × β) :=
  match table.lookup (key a) with
  | some b => (.ok b, table)
  | none =>
      match f a with
      | .error e => (.error e, table)
      | .ok b => (.ok b, drop table ++ [(key a, b)])

/-- What calls return one after the other, each with its own way to drop. -/
def calls (f : α → Except ε β) (key : α → κ) :
    List (κ × β) → List (α × (List (κ × β) → List (κ × β))) → List (Except ε β)
  | _, [] => []
  | table, (a, drop) :: rest =>
      (call f key drop table a).1 :: calls f key (call f key drop table a).2 rest

/-- What is in the table is what the function returns for every argument with that key. -/
def Sound (f : α → Except ε β) (key : α → κ) (table : List (κ × β)) : Prop :=
  ∀ k b, (k, b) ∈ table → ∀ a, key a = k → f a = .ok b

section Calls
variable {f : α → Except ε β} {key : α → κ} {drop : List (κ × β) → List (κ × β)}
  {table : List (κ × β)} [LawfulBEq κ]

theorem mem_of_lookup {k : κ} {b : β} (h : table.lookup k = some b) : (k, b) ∈ table := by
  induction table with
  | nil => cases h
  | cons entry table ih =>
      rw [List.lookup_cons] at h
      split at h
      · rename_i hk
        obtain rfl := Option.some.inj h
        obtain rfl : k = entry.1 := eq_of_beq hk
        exact List.mem_cons_self
      · exact List.mem_cons_of_mem _ (ih h)

/-- A call returns what the function does, and the table stays sound. -/
theorem call_spec (S : Sound f key table) (hkey : Function.Injective key) (hdrop : drop table ⊆ table)
    (a : α) : (call f key drop table a).1 = f a ∧ Sound f key (call f key drop table a).2 := by
  rw [call]
  cases hlookup : table.lookup (key a) with
  | some b => exact ⟨(S _ b (mem_of_lookup hlookup) a rfl).symm, S⟩
  | none =>
      cases hf : f a with
      | error e => exact ⟨rfl, S⟩
      | ok b =>
          refine ⟨rfl, ?_⟩
          intro k b' hmem a' ha'
          rcases List.mem_append.mp hmem with hmem | hmem
          · exact S k b' (hdrop hmem) a' ha'
          · obtain ⟨hk, hb⟩ := Prod.mk.inj (List.mem_singleton.mp hmem)
            rw [hkey (ha'.trans hk), hf, hb]

/-- **Calls return what the function returns** for their arguments. -/
theorem calls_eq (S : Sound f key table) (hkey : Function.Injective key)
    (cs : List (α × (List (κ × β) → List (κ × β)))) (hdrop : ∀ c ∈ cs, ∀ t, c.2 t ⊆ t) :
    calls f key table cs = cs.map fun c => f c.1 := by
  induction cs generalizing table with
  | nil => rfl
  | cons c cs ih =>
      obtain ⟨hresult, S'⟩ := call_spec S hkey (hdrop c List.mem_cons_self table) c.1
      rw [calls, List.map_cons, hresult, ih S' fun c' hc' => hdrop c' (List.mem_cons_of_mem c hc')]

end Calls

end MemoTable
