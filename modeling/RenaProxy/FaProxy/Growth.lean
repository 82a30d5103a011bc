import RenaProxy.FaProxy.Loader
import RenaProxy.Lib.Runs

/-!
# Writing to a growing string

`str_append_str` writes one byte after the other, at `size`, after one call of `str_resize`. Here
are these writes; `hasRoom_iff` says in which runs of calls all of them are inside of what is
allocated.
-/
namespace RenaProxy.FaProxy
open Runs

namespace StrT

/-- `s->string[s->size++] = val`, which needs `s->size < s->reserve`. -/
def writeByte (s : StrT) (val : UInt8) : Option StrT :=
  if h : s.size < s.reserve then
    some ⟨s.string ++ [val], s.reserve, by rw [List.length_append]; exact h⟩
  else none

/-- The loop of `str_append_str`. -/
def writeBytes (s : StrT) (val : List UInt8) : Option StrT := val.foldlM writeByte s

/-- What `str_append_char` and `str_append_str` do. -/
def resizeAndWrite (s : StrT) (val : List UInt8) : Option StrT :=
  (s.strResize val.length).writeBytes val

variable {s : StrT} {val : List UInt8}

/-- All bytes are written when there is room for all of them before the first. -/
theorem writeBytes_eq (s : StrT) (val : List UInt8) : s.writeBytes val =
    if h : (s.string ++ val).length ≤ s.reserve then some ⟨s.string ++ val, s.reserve, h⟩
    else none := by
  induction val generalizing s with
  | nil =>
      have hroom : (s.string ++ []).length ≤ s.reserve := by simpa using s.size_le
      rw [dif_pos hroom]
      simp [writeBytes]
  | cons b val ih =>
      rw [writeBytes, List.foldlM_cons, writeByte]
      by_cases hfirst : s.size < s.reserve
      · have hrest := ih ⟨s.string ++ [b], s.reserve, by rw [List.length_append]; exact hfirst⟩
        rw [writeBytes] at hrest
        rw [dif_pos hfirst]
        simpa [List.append_assoc] using hrest
      · have hfull : ¬ (s.string ++ b :: val).length ≤ s.reserve := by
          rw [List.length_append, List.length_cons, ← size]
          omega
        rw [dif_neg hfirst, dif_neg hfull]
        rfl

/-- Byte by byte it is what the loader appends. -/
theorem resizeAndWrite_eq (s : StrT) (val : List UInt8) :
    s.resizeAndWrite val = s.strAppendStr val := writeBytes_eq _ _

end StrT

/-- What is done to a `str_t`. Before it appends, the loader calls `str_resize` on its own, and what
was held it forgets. -/
inductive StrCall
  | appendChar (val : UInt8)
  | appendStr (val : List UInt8)
  | resize (mod : ℕ)
  | clear
  deriving DecidableEq, Repr

namespace StrCall

/-- One call, unless it writes where nothing is allocated. -/
def run (s : StrT) : StrCall → Option StrT
  | appendChar val => s.resizeAndWrite [val]
  | appendStr val => s.resizeAndWrite val
  | resize mod => some (s.strResize mod)
  | clear => some s.cleared

/-- What is appended is not longer than what is free with one step of the allocation. -/
def Fits (s : StrT) : StrCall → Prop
  | appendStr val => s.size + val.length ≤ s.reserve + reserveOffset
  | _ => True

/-- In all calls, before each write, `s->size < s->reserve`. -/
def HasRoom (calls : List StrCall) : Prop := (calls.foldlM run .zeroed).isSome

theorem isSome_run_iff (s : StrT) (c : StrCall) : (run s c).isSome ↔ Fits s c := by
  cases c with
  | appendChar val =>
      obtain ⟨s', hs', -⟩ := s.strAppendChar_eq val
      rw [StrT.strAppendChar, ← StrT.resizeAndWrite_eq] at hs'
      rw [run, hs']
      exact iff_of_true rfl trivial
  | appendStr val =>
      have hsize := s.size_le
      rw [← StrT.size] at hsize
      rw [run, StrT.resizeAndWrite_eq, ← not_iff_not, Option.not_isSome_iff_eq_none,
        StrT.strAppendStr_eq_none_iff, Fits, StrT.resized]
      split_ifs with hroom
      · omega
      · omega
  | resize mod => exact iff_of_true rfl trivial
  | clear => exact iff_of_true rfl trivial

/-- **There is room for every write** when each text that is appended fits into what is free with
one step of the allocation. -/
theorem hasRoom_iff (calls : List StrCall) : HasRoom calls ↔ Along run Fits .zeroed calls := by
  rw [HasRoom, isSome_foldlM_iff]
  exact along_congr isSome_run_iff

/-- Held bytes as the loader appends them, and without the call of `str_resize` before. -/
theorem not_hasRoom_held :
    ¬ HasRoom [.resize 3001, .appendStr (List.replicate 3000 97)] ∧
      ¬ HasRoom [.appendStr (List.replicate 3000 97)] := by
  have hfull (s : StrT) (hs : s.reserve + reserveOffset < s.size + 3000) :
      ¬ Fits s (.appendStr (List.replicate 3000 97)) := by
    rw [Fits, List.length_replicate]
    exact not_le.mpr hs
  rw [HasRoom, HasRoom, isSome_foldlM_iff, isSome_foldlM_iff, along_congr isSome_run_iff,
    along_congr isSome_run_iff]
  refine ⟨fun h => ?_, fun h => ?_⟩
  · exact hfull _ (by decide) (h.2 _ rfl).1
  · exact hfull _ (by decide) h.1

end StrCall

end RenaProxy.FaProxy
