import X1.Base.Window
import X1.Base.Word

/-! # The circular buffer of lib/cbuf.c

The indices run freely modulo `2 ^ 32` and start 500 below the point where they wrap
around. Seen from outside, the buffer is a queue of bytes of bounded length.
-/
namespace X1.Lib
open X1.Word X1.Window

/-- The error codes of error.h that the modelled functions return. -/
inductive Error where
  | again | busy
  deriving DecidableEq

/-- `struct cbuf`, with the bytes `buf` points to. -/
structure Cbuf where
  buf : ℕ → UInt8
  capacity : ℕ
  start : ℕ
  endIndex : ℕ

def CBUF_INIT_INDEX : ℕ := neg 500

/-- The capacity must be a power of two, which is asserted. -/
def cbufInit (buf : ℕ → UInt8) (capacity : ℕ) : Cbuf := ⟨buf,capacity,CBUF_INIT_INDEX,CBUF_INIT_INDEX⟩

def cbufSize (cbuf : Cbuf) : ℕ := sub cbuf.endIndex cbuf.start

def cbufIndex (cbuf : Cbuf) (index : ℕ) : ℕ := index &&& sub cbuf.capacity 1

def cbufUpdateStart (cbuf : Cbuf) : Cbuf :=
  if cbufSize cbuf > cbuf.capacity then { cbuf with start := sub cbuf.endIndex cbuf.capacity } else cbuf

def cbufPushb (cbuf : Cbuf) (byte : UInt8) (erase : Bool) : Except Error Cbuf :=
  if erase = false ∧ sub cbuf.capacity (cbufSize cbuf) = 0 then .error .again
  else .ok (cbufUpdateStart { cbuf with
    buf := Function.update cbuf.buf (cbufIndex cbuf cbuf.endIndex) byte
    endIndex := add cbuf.endIndex 1 })

def cbufPopb (cbuf : Cbuf) : Except Error (UInt8 × Cbuf) :=
  if cbufSize cbuf = 0 then .error .again
  else .ok (cbuf.buf (cbufIndex cbuf cbuf.start),{ cbuf with start := add cbuf.start 1 })

/-- The bytes in the buffer, oldest first. -/
def Cbuf.bytes (cbuf : Cbuf) : List UInt8 := window cbuf.buf cbuf.capacity cbuf.start (cbufSize cbuf)

/-- The indices are words, and differ by at most the capacity. -/
structure Cbuf.Valid (cbuf : Cbuf) : Prop where
  capacity : ∃ k < 32, cbuf.capacity = 2 ^ k
  start_lt : cbuf.start < 2 ^ 32
  endIndex_lt : cbuf.endIndex < 2 ^ 32
  size_le : cbufSize cbuf ≤ cbuf.capacity

namespace Cbuf.Valid
variable {cbuf : Cbuf}

theorem dvd (h : cbuf.Valid) : cbuf.capacity ∣ 2 ^ 32 := by
  obtain ⟨k,hk,hc⟩ := h.capacity
  rw [hc]
  exact Nat.pow_dvd_pow 2 hk.le

theorem capacity_lt (h : cbuf.Valid) : 0 < cbuf.capacity ∧ cbuf.capacity < 2 ^ 32 := by
  obtain ⟨k,hk,hc⟩ := h.capacity
  rw [hc]
  exact ⟨Nat.two_pow_pos k,Nat.pow_lt_pow_right (by norm_num) hk⟩

theorem index_eq (h : cbuf.Valid) (index : ℕ) : cbufIndex cbuf index = index % cbuf.capacity := by
  obtain ⟨hpos,hlt⟩ := h.capacity_lt
  obtain ⟨k,hk,hc⟩ := h.capacity
  rw [cbufIndex,sub_of_le hpos hlt,hc,and_low_mask]

theorem endIndex_mod (h : cbuf.Valid) :
    cbuf.endIndex % cbuf.capacity = (cbuf.start + cbufSize cbuf) % cbuf.capacity := by
  have hs := h.start_lt
  have he := h.endIndex_lt
  have hword : cbuf.endIndex = (cbuf.start + cbufSize cbuf) % 2 ^ 32 := by
    unfold cbufSize sub
    omega
  conv_lhs => rw [hword]
  exact Nat.mod_mod_of_dvd _ h.dvd

theorem length_bytes : cbuf.bytes.length = cbufSize cbuf := length_window

theorem pushb (h : cbuf.Valid) (byte : UInt8) :
    (cbuf.bytes.length = cbuf.capacity → cbufPushb cbuf byte false = .error .again) ∧
    (cbuf.bytes.length ≠ cbuf.capacity → ∃ cbuf', cbufPushb cbuf byte false = .ok cbuf' ∧ cbuf'.Valid ∧
      cbuf'.capacity = cbuf.capacity ∧ cbuf'.bytes = cbuf.bytes ++ [byte]) := by
  obtain ⟨hpos,hlt⟩ := h.capacity_lt
  have hs := h.start_lt
  have he := h.endIndex_lt
  have hle := h.size_le
  have hfree : sub cbuf.capacity (cbufSize cbuf) = cbuf.capacity - cbufSize cbuf := sub_of_le hle hlt
  rw [length_bytes]
  refine ⟨fun hfull => ?_,fun hroom => ?_⟩
  · rw [cbufPushb,hfree,if_pos ⟨rfl,by omega⟩]
  · have hn : cbufSize cbuf < cbuf.capacity := by omega
    let cbuf' : Cbuf := { cbuf with
      buf := Function.update cbuf.buf (cbufIndex cbuf cbuf.endIndex) byte
      endIndex := add cbuf.endIndex 1 }
    have hsize : cbufSize cbuf' = cbufSize cbuf + 1 := by
      have : cbufSize cbuf = sub cbuf.endIndex cbuf.start := rfl
      change sub (add cbuf.endIndex 1) cbuf.start = _
      unfold sub add at *
      omega
    refine ⟨cbuf',?_,⟨h.capacity,hs,add_lt _ _,by rw [hsize]; exact hn⟩,rfl,?_⟩
    · rw [cbufPushb,hfree,if_neg (by omega)]
      change Except.ok (cbufUpdateStart cbuf') = _
      rw [cbufUpdateStart,if_neg]
      rw [hsize]
      exact Nat.not_lt.mpr hn
    · unfold Cbuf.bytes
      rw [hsize]
      change window (Function.update cbuf.buf (cbufIndex cbuf cbuf.endIndex) byte) cbuf.capacity
        cbuf.start _ = _
      rw [h.index_eq,h.endIndex_mod]
      exact window_push hn byte

theorem popb (h : cbuf.Valid) :
    (cbuf.bytes = [] → cbufPopb cbuf = .error .again) ∧
    (∀ byte bytes, cbuf.bytes = byte :: bytes → ∃ cbuf', cbufPopb cbuf = .ok (byte,cbuf') ∧ cbuf'.Valid ∧
      cbuf'.capacity = cbuf.capacity ∧ cbuf'.bytes = bytes) := by
  have hs := h.start_lt
  have he := h.endIndex_lt
  refine ⟨fun hempty => ?_,fun byte bytes hbytes => ?_⟩
  · rw [cbufPopb,if_pos (window_eq_nil.mp hempty)]
  · obtain ⟨n,hn⟩ : ∃ n, cbufSize cbuf = n + 1 := by
      refine Nat.exists_eq_succ_of_ne_zero fun hz => ?_
      rw [← length_bytes,hbytes] at hz
      simp at hz
    have hsplit := hbytes
    unfold Cbuf.bytes at hsplit
    rw [hn,window_succ] at hsplit
    obtain ⟨hbyte,hrest⟩ := List.cons_eq_cons.mp hsplit
    let cbuf' : Cbuf := { cbuf with start := add cbuf.start 1 }
    have hsize : cbufSize cbuf' = n := by
      have : cbufSize cbuf = sub cbuf.endIndex cbuf.start := rfl
      change sub cbuf.endIndex (add cbuf.start 1) = _
      unfold sub add at *
      omega
    refine ⟨cbuf',?_,⟨h.capacity,add_lt _ _,he,?_⟩,rfl,?_⟩
    · rw [cbufPopb,if_neg (by omega),h.index_eq,hbyte]
    · have hle := h.size_le
      rw [hsize]
      change n ≤ cbuf.capacity
      omega
    · unfold Cbuf.bytes
      rw [hsize,← hrest]
      refine window_congr ?_
      change add cbuf.start 1 % cbuf.capacity = _
      exact Nat.mod_mod_of_dvd _ h.dvd

end Cbuf.Valid

theorem valid_cbufInit (buf : ℕ → UInt8) {k : ℕ} (hk : k < 32) :
    (cbufInit buf (2 ^ k)).Valid ∧ (cbufInit buf (2 ^ k)).bytes = [] := by
  have hsize : cbufSize (cbufInit buf (2 ^ k)) = 0 := by
    simp [cbufSize,cbufInit,CBUF_INIT_INDEX,neg,sub]
  refine ⟨⟨⟨k,hk,rfl⟩,?_,?_,by rw [hsize]; exact Nat.zero_le _⟩,window_eq_nil.mpr hsize⟩
  · exact sub_lt 0 500
  · exact sub_lt 0 500

end X1.Lib
