import Disasm6502.Opcode
import Mathlib.Data.List.Chain
import Mathlib.Data.List.Nodup

/-!
# The opcode table

The rows stand in order of their bytes, so a byte has one row at most and the look-up finds it.
-/
namespace Disasm6502.Opcode

theorem isChain_codes : (documented.map code).IsChain (· < ·) := by decide +kernel

theorem nodup_codes : (documented.map code).Nodup :=
  haveI : IsTrans UInt8 (· < ·) := ⟨fun _ _ _ => UInt8.lt_trans⟩
  (List.isChain_iff_pairwise.mp isChain_codes).imp UInt8.ne_of_lt

theorem code_injOn {r s : Opcode} (hr : r ∈ documented) (hs : s ∈ documented) (h : r.code = s.code) :
    r = s :=
  List.inj_on_of_nodup_map nodup_codes hr hs h

theorem nodup_mnemonics :
    ∀ mode ∈ Mode.all, ((documented.filter (·.mode == mode)).map mnemonic).Nodup := by
  decide +kernel

theorem mnemonic_injOn {r s : Opcode} (hr : r ∈ documented) (hs : s ∈ documented) (hmode : r.mode = s.mode)
    (hmnemonic : r.mnemonic = s.mnemonic) : r = s := by
  have hr' : r ∈ documented.filter (·.mode == s.mode) := List.mem_filter.mpr ⟨hr, by simpa using hmode⟩
  have hs' : s ∈ documented.filter (·.mode == s.mode) := List.mem_filter.mpr ⟨hs, by simp⟩
  exact List.inj_on_of_nodup_map (nodup_mnemonics s.mode (Mode.mem_all s.mode)) hr' hs' hmnemonic

/-- Branches have mnemonics of their own. -/
theorem mnemonic_ne_of_relative : ∀ r ∈ documented, r.mode = .relative →
    ∀ s ∈ documented, s.mode = .absolute → r.mnemonic ≠ s.mnemonic := by
  decide +kernel

theorem length_mnemonic : ∀ row ∈ documented, row.mnemonic.toList.length = 3 := by decide +kernel

theorem find?_eq_none {code : UInt8} (h : ∀ row ∈ documented, row.code ≠ code) : find? code = none :=
  List.find?_eq_none.mpr fun row hrow => by simpa using h row hrow

theorem find?_code {row : Opcode} (h : row ∈ documented) : find? row.code = some row := by
  cases hfind : find? row.code with
  | none =>
    have hno := List.find?_eq_none.mp hfind row h
    simp at hno
  | some found =>
    have hcode : found.code = row.code := by simpa using List.find?_some hfind
    rw [code_injOn (List.mem_of_find?_eq_some hfind) h hcode]

end Disasm6502.Opcode
