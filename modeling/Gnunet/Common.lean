import Mathlib.Data.List.TakeWhile
import Mathlib.Tactic

/-!
# Results, messages, strings and memory of the util library
-/

namespace Gnunet

/-- `GNUNET_OK`, which is `GNUNET_YES`, `GNUNET_NO` and `GNUNET_SYSERR`. -/
inductive Result where
  | ok
  | no
  | syserr
  deriving DecidableEq, Repr

def sizeofMessageHeader : Nat := 4

def headerSize : List UInt8 → Nat
  | high :: low :: _ => high.toNat * 256 + low.toNat
  | _ => 0

/-- What a C string holds in front of the byte that ends it. -/
def cString (bytes : List UInt8) : List UInt8 :=
  bytes.takeWhile (· != 0)

theorem cString_eq (hbytes : (0 : UInt8) ∉ bytes) : cString bytes = bytes := by
  refine List.takeWhile_eq_self_iff.mpr fun byte hbyte => ?_
  exact bne_iff_ne.mpr fun hzero => hbytes (hzero ▸ hbyte)

theorem cString_append_nul (hbytes : (0 : UInt8) ∉ bytes)
    (back : List UInt8) : cString (bytes ++ 0 :: back) = bytes := by
  rw [cString, List.takeWhile_append_of_pos, List.takeWhile_cons_of_neg (by simp), List.append_nil]
  exact fun byte hbyte => bne_iff_ne.mpr fun hzero => hbytes (hzero ▸ hbyte)

structure CString where
  bytes : List UInt8
  noNul : (0 : UInt8) ∉ bytes
  deriving DecidableEq, Repr

def CString.read (memory : List UInt8) : CString where
  bytes := cString memory
  noNul hmem := by simpa using List.mem_takeWhile_imp hmem

def CString.terminated (string : CString) : List UInt8 :=
  string.bytes ++ [0]

theorem CString.read_terminated (string : CString) :
    CString.read (string.terminated ++ back) = string := by
  have hbytes := cString_append_nul string.noNul back
  simp only [CString.read, CString.terminated, List.append_assoc, List.singleton_append, hbytes]

theorem CString.read_bytes (string : CString) : CString.read string.bytes = string := by
  simp only [CString.read, cString_eq string.noNul]

/-- The length of a string with the byte that ends it; 0 for `NULL`. -/
def stringSize : Option CString → Nat
  | none => 0
  | some string => string.bytes.length + 1

/-- `GNUNET_MAX_MALLOC_CHECKED`: larger allocations fail an assertion. -/
def maxMallocChecked : Nat := 1024 * 1024 * 40

end Gnunet
