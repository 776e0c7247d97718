import Playhead.Packet.Basic
import Playhead.SortedMap

/-!
# Corrective packets

Some packets set something for the whole session: the difficulty, and everything this library does
not interpret. They are **corrective**: each belongs to a slot (`Playhead.CorrectionSlot.of?`), of
which only the latest packet counts, and a fresh join wipes all slots.
-/

namespace Playhead

/-- A slot of which only the latest packet counts. -/
inductive CorrectionSlot where
  | difficulty
  | foreign (id : Int32)
  deriving DecidableEq, Repr

namespace CorrectionSlot

/-- The slot of a packet, if it is corrective. -/
def of? : Packet → Option CorrectionSlot
  | .changeDifficulty .. => some difficulty
  | .foreign id _ => some (foreign id)
  | _ => none

/-- The order in which slots are listed: the difficulty, then the others by number. -/
def before : CorrectionSlot → CorrectionSlot → Bool
  | difficulty, difficulty => false
  | difficulty, foreign _ => true
  | foreign _, difficulty => false
  | foreign a, foreign b => a < b

end CorrectionSlot

instance : KeyOrder CorrectionSlot where
  before := CorrectionSlot.before
  irrefl a := by cases a <;> simp [CorrectionSlot.before]
  trans a b c := by
    cases a <;> cases b <;> cases c <;>
      simp only [CorrectionSlot.before, decide_eq_true_eq, Bool.false_eq_true, imp_self,
        implies_true, false_implies, Int32.lt_iff_toInt_lt]
    omega
  total a b := by
    cases a <;> cases b <;>
      simp only [CorrectionSlot.before, decide_eq_false_iff_not, Bool.true_eq_false, imp_self,
        false_implies, Int32.lt_iff_toInt_lt, CorrectionSlot.foreign.injEq]
    intro h h'
    exact Int32.toInt_inj.1 (by omega)

end Playhead
