import FuzzMonitor.Branches

namespace FuzzMonitor.Branches
open CStrings

/-- The text that the key stands for, before snprintf cuts it to the buffer. -/
def pairKey (p : UInt64 × UInt64) : CText := decimal p.1 ++ hashKeySep ++ decimal p.2

theorem pairKey_length (p : UInt64 × UInt64) : (pairKey p).length < hashKeySz := by
  have h₁ := decimal_length_le p.1
  have h₂ := decimal_length_le p.2
  simp only [pairKey, hashKeySep, hashKeySz, List.length_append, List.length_singleton]
  omega

theorem hashKey_eq (a b : UInt64) : hashKey a b = pairKey (a, b) :=
  snprintf_of_lt (pairKey_length (a, b))

theorem slash_notMem_decimal (n : UInt64) : '/' ∉ decimal n := by
  intro h
  have := decimal_isDigit h
  contradiction

theorem strstr_pairKey (p : UInt64 × UInt64) :
    strstr (pairKey p) hashKeySep = some (decimal p.1).length := by
  unfold pairKey hashKeySep
  rw [List.append_assoc]
  exact strstr_singleton_append _ _ (slash_notMem_decimal p.1)

/-- The separator splits a key in one way only, and each half determines its number. -/
theorem pairKey_injective : Function.Injective pairKey := by
  intro p q h
  unfold pairKey hashKeySep at h
  rw [List.append_assoc, List.append_assoc, List.singleton_append, List.singleton_append] at h
  obtain ⟨hfst, hsnd⟩ :=
    append_separator_inj (slash_notMem_decimal p.1) (slash_notMem_decimal q.1) h
  exact Prod.ext (decimal_injective hfst) (decimal_injective hsnd)

/-- The decoding of free_hashtable: strstr on the separator, then atol of both halves;
none is a write through the NULL that strstr returned. -/
def decodeKey (key : CText) : Option (UInt64 × UInt64) :=
  match strstr key hashKeySep with
  | none => none
  | some split =>
    some (UInt64.ofInt (atol (key.take split)), UInt64.ofInt (atol (key.drop (split + 1))))

def readBack (n : UInt64) : UInt64 := UInt64.ofInt (min longMax n.toNat)

theorem decodeKey_pairKey (p : UInt64 × UInt64) :
    decodeKey (pairKey p) = some (readBack p.1, readBack p.2) := by
  have htake : (pairKey p).take (decimal p.1).length = decimal p.1 := by
    unfold pairKey
    rw [List.append_assoc, List.take_left]
  have hdrop : (pairKey p).drop ((decimal p.1).length + 1) = decimal p.2 := by
    have hlen : (decimal p.1 ++ hashKeySep).length = (decimal p.1).length + 1 :=
      List.length_append
    unfold pairKey
    rw [← hlen, List.drop_left]
  unfold decodeKey
  rw [strstr_pairKey]
  simp only [htake, hdrop, atol_decimal, readBack]

theorem toNat_readBack (n : UInt64) : (readBack n).toNat = min (2 ^ 63 - 1) n.toNat := by
  have hn := n.toNat_lt
  unfold readBack UInt64.ofInt longMax
  rw [UInt64.toNat_ofNat']
  omega

/-- atol saturates, so exactly the addresses below 2^63 survive. -/
theorem readBack_eq_iff (n : UInt64) : readBack n = n ↔ n.toNat < 2 ^ 63 := by
  rw [← UInt64.toNat_inj, toNat_readBack]
  omega

end FuzzMonitor.Branches
