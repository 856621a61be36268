import X1.Base.Overwrite
import X1.Lib.Cbuf

/-! # Ranges of bytes in the circular buffer of lib/cbuf.c

The storage lies at the address `base`, and pointers into it are compared after arithmetic
modulo `2 ^ 32`. `none` is a call of `memcpy` that reads or writes beyond the storage or the
buffer of the caller, or a failed assertion.
-/
namespace X1.Lib
open X1.Word X1.Window

/-- The error codes of the functions on ranges. -/
inductive RangeError where
  | again | inval
  deriving DecidableEq

def cbufClear (cbuf : Cbuf) : Cbuf := { cbuf with start := cbuf.endIndex }

def cbufRangeValid (cbuf : Cbuf) (start endIndex : ℕ) : Bool :=
  sub endIndex start ≤ cbufSize cbuf && sub start cbuf.start ≤ cbufSize cbuf &&
    sub cbuf.endIndex endIndex ≤ cbufSize cbuf

/-- `memcpy(dest, src, n)` into the storage, from a buffer that holds `src`. -/
def copyTo (base : ℕ) (cbuf : Cbuf) (dest : ℕ) (src : List UInt8) (n : ℕ) : Option Cbuf :=
  if n ≤ src.length ∧ sub dest base + n ≤ cbuf.capacity then
    some { cbuf with buf := overwrite cbuf.buf (sub dest base) (src.take n) }
  else none

/-- `memcpy(dest, src, n)` from the storage, to a buffer with room for `room` bytes. -/
def copyFrom (base : ℕ) (cbuf : Cbuf) (room src n : ℕ) : Option (List UInt8) :=
  if n ≤ room ∧ sub src base + n ≤ cbuf.capacity then some (slice cbuf.buf (sub src base) n) else none

/-- The first part of `cbuf_write`: the new end, and the bytes of `buf` that are not overwritten at once, with
their index and their number. -/
def cbufExtend (cbuf : Cbuf) (index : ℕ) (buf : List UInt8) (size : ℕ) : Cbuf × ℕ × List UInt8 × ℕ :=
  let newEnd := add index size
  if cbufRangeValid cbuf cbuf.start newEnd = false then
    let cbuf := { cbuf with endIndex := newEnd }
    if size > cbuf.capacity then
      let skip := sub size cbuf.capacity
      (cbuf,add index skip,buf.drop skip,cbuf.capacity)
    else (cbuf,index,buf,size)
  else (cbuf,index,buf,size)

/-- The second part of `cbuf_write`. -/
def cbufStore (base : ℕ) (cbuf : Cbuf) (index : ℕ) (buf : List UInt8) (size : ℕ) : Option Cbuf :=
  let start := add base (cbufIndex cbuf index)
  let stop := add start size
  let bufEnd := add base cbuf.capacity
  if stop ≤ base ∨ stop > bufEnd then do
    let skip := sub bufEnd start
    let cbuf ← copyTo base cbuf start buf skip
    copyTo base cbuf base (buf.drop skip) (sub size skip)
  else copyTo base cbuf start buf size

def cbufWrite (base : ℕ) (cbuf : Cbuf) (index : ℕ) (buf : List UInt8) (size : ℕ) :
    Option (Except RangeError Cbuf) :=
  if cbufRangeValid cbuf index cbuf.endIndex = false then some (.error .inval)
  else
    let (cbuf,index,buf,size) := cbufExtend cbuf index buf size
    (cbufStore base cbuf index buf size).map fun cbuf => .ok (cbufUpdateStart cbuf)

/-- The bytes that are copied; their number is stored in `*sizep`. -/
def cbufRead (base : ℕ) (cbuf : Cbuf) (index sizep : ℕ) : Option (Except RangeError (List UInt8)) :=
  if cbufRangeValid cbuf index (add index 1) = false then some (.error .inval)
  else
    let size := sub cbuf.endIndex index
    let count := if sizep > size then size else sizep
    let start := add base (cbufIndex cbuf index)
    let stop := add start count
    let bufEnd := add base cbuf.capacity
    if stop > base ∧ stop ≤ bufEnd then (copyFrom base cbuf sizep start count).map .ok
    else do
      let size := sub bufEnd start
      let first ← copyFrom base cbuf sizep start size
      let rest ← copyFrom base cbuf (sizep - size) base (sub count size)
      return .ok (first ++ rest)

def cbufPush (base : ℕ) (cbuf : Cbuf) (buf : List UInt8) (size : ℕ) (erase : Bool) :
    Option (Except RangeError Cbuf) :=
  if erase = false ∧ size > sub cbuf.capacity (cbufSize cbuf) then some (.error .again)
  else cbufWrite base cbuf cbuf.endIndex buf size

def cbufPop (base : ℕ) (cbuf : Cbuf) (sizep : ℕ) : Option (Except RangeError (List UInt8 × Cbuf)) :=
  if cbufSize cbuf = 0 then some (.error .again)
  else do
    match ← cbufRead base cbuf cbuf.start sizep with
    | .error _ => none
    | .ok bytes => return .ok (bytes,{ cbuf with start := add cbuf.start bytes.length })

/-! ## What the buffer holds after a write -/

theorem sub_same {a : ℕ} (ha : a < 2 ^ 32) : sub a a = 0 := by
  rw [sub_of_le (Nat.le_refl a) ha,Nat.sub_self]

theorem cbufWrite_inval {cbuf : Cbuf} {index : ℕ} (hk : ¬sub index cbuf.start ≤ cbufSize cbuf) (base : ℕ)
    (buf : List UInt8) (size : ℕ) : cbufWrite base cbuf index buf size = some (.error .inval) := by
  have hvalid : cbufRangeValid cbuf index cbuf.endIndex = false := by
    simp only [cbufRangeValid,Bool.and_eq_false_iff,decide_eq_false_iff_not]
    exact .inl (.inr hk)
  rw [cbufWrite,if_pos hvalid]

namespace Cbuf.Valid
variable {cbuf : Cbuf} {base index size sizep : ℕ} {buf : List UInt8}

theorem size_eq (h : cbuf.Valid) : cbuf.endIndex = (cbuf.start + cbufSize cbuf) % 2 ^ 32 := by
  have hs := h.start_lt
  have he := h.endIndex_lt
  unfold cbufSize sub
  omega

theorem capacity_le (h : cbuf.Valid) : cbuf.capacity ≤ 2 ^ 31 := by
  obtain ⟨k,hk,hc⟩ := h.capacity
  rw [hc]
  exact Nat.pow_le_pow_right (by norm_num) (by omega)

theorem pointer (h : cbuf.Valid) (hbase : base + cbuf.capacity < 2 ^ 32) (index : ℕ) :
    add base (cbufIndex cbuf index) = base + index % cbuf.capacity ∧
      sub (base + index % cbuf.capacity) base = index % cbuf.capacity ∧
      sub (add base cbuf.capacity) (base + index % cbuf.capacity) = cbuf.capacity - index % cbuf.capacity := by
  have hlt := Nat.mod_lt index h.capacity_lt.1
  rw [h.index_eq]
  refine ⟨add_of_lt (by omega),?_,?_⟩
  · rw [sub_of_le (by omega) (by omega)]
    omega
  · rw [add_of_lt hbase,sub_of_le (by omega) (by omega)]
    omega

/-- The comparison of pointers tells whether the range fits before the end of the storage, but for the empty
range at its beginning. -/
theorem wraps_iff (h : cbuf.Valid) (hbase : base + cbuf.capacity < 2 ^ 32) (hsize : size ≤ cbuf.capacity)
    (index : ℕ) :
    (add (add base (cbufIndex cbuf index)) size ≤ base ∨
      add (add base (cbufIndex cbuf index)) size > add base cbuf.capacity) ↔
      cbuf.capacity < index % cbuf.capacity + size ∨ (size = 0 ∧ index % cbuf.capacity = 0) := by
  have hlt := Nat.mod_lt index h.capacity_lt.1
  have hcap := h.capacity_le
  rw [(h.pointer hbase index).1,add_of_lt hbase]
  unfold add
  omega

/-- What the second part of `cbuf_write` does, wherever the end has been moved to. -/
theorem store (h : cbuf.Valid) (hbase : base + cbuf.capacity < 2 ^ 32) (hle : buf.length ≤ cbuf.capacity)
    (hidle : ¬(buf.length = 0 ∧ index % cbuf.capacity = 0)) (stop : ℕ) :
    ∃ cells',cbufStore base { cbuf with endIndex := stop } index buf buf.length =
        some { cbuf with buf := cells', endIndex := stop } ∧ Wrote cbuf.buf cells' cbuf.capacity index buf := by
  obtain ⟨hpointer,hoffset,hskip⟩ := h.pointer hbase index
  have hwraps := h.wraps_iff hbase hle index
  have hlt := Nat.mod_lt index h.capacity_lt.1
  have hsame : cbufIndex { cbuf with endIndex := stop } index = cbufIndex cbuf index := rfl
  unfold cbufStore
  simp only [hsame,hwraps]
  rw [hpointer,hskip]
  by_cases hover : cbuf.capacity < index % cbuf.capacity + buf.length
  · refine ⟨_,?_,wrote_overwrite_wrapped hle⟩
    have hrest : sub buf.length (cbuf.capacity - index % cbuf.capacity) =
        buf.length - (cbuf.capacity - index % cbuf.capacity) := sub_of_le (by omega) (by omega)
    have hall : (buf.drop (cbuf.capacity - index % cbuf.capacity)).take
        (buf.length - (cbuf.capacity - index % cbuf.capacity)) = buf.drop (cbuf.capacity - index % cbuf.capacity) :=
      List.take_of_length_le (by rw [List.length_drop])
    have hzero : sub base base = 0 := sub_same (by omega)
    rw [if_pos (.inl hover)]
    simp only [copyTo,hoffset,hrest,hzero]
    rw [if_pos (by omega)]
    simp only [bind,Option.bind]
    rw [if_pos (by rw [List.length_drop]; omega),hall]
  · refine ⟨_,?_,wrote_overwrite (by omega)⟩
    rw [if_neg (by omega),copyTo,hoffset,if_pos (by dsimp only; omega),List.take_length]

/-- The empty range at the beginning of the storage is taken for one that goes around the whole of it. -/
theorem store_idle (h : cbuf.Valid) (hbase : base + cbuf.capacity < 2 ^ 32) (hindex : index % cbuf.capacity = 0)
    (stop : ℕ) : cbufStore base { cbuf with endIndex := stop } index [] 0 = none := by
  obtain ⟨hpointer,hoffset,hskip⟩ := h.pointer hbase index
  have hpos := h.capacity_lt.1
  have hwraps := h.wraps_iff hbase (Nat.zero_le _) index
  have hsame : cbufIndex { cbuf with endIndex := stop } index = cbufIndex cbuf index := rfl
  unfold cbufStore
  simp only [hsame,hwraps]
  rw [hpointer,hskip,if_pos (.inr ⟨trivial,hindex⟩)]
  unfold copyTo
  rw [if_neg (by simp only [List.length_nil]; omega)]
  rfl

theorem extend (h : cbuf.Valid) (hindex : index < 2 ^ 32) (hk : sub index cbuf.start ≤ cbufSize cbuf)
    (hroom : size + cbuf.capacity < 2 ^ 32) :
    cbufExtend cbuf index buf size =
      ({ cbuf with endIndex := add cbuf.start (max (cbufSize cbuf) (sub index cbuf.start + size)) },
        add index (size - cbuf.capacity),buf.drop (size - cbuf.capacity),min size cbuf.capacity) := by
  have hs := h.start_lt
  have he := h.endIndex_lt
  have hle := h.size_le
  have hend := h.size_eq
  have hcap := h.capacity_lt
  have hvalid : cbufRangeValid cbuf cbuf.start (add index size) =
      decide (sub index cbuf.start + size ≤ cbufSize cbuf) := by
    rw [Bool.eq_iff_iff]
    simp only [cbufRangeValid,Bool.and_eq_true,decide_eq_true_eq]
    generalize hn : cbufSize cbuf = m at *
    unfold sub add at *
    omega
  have hindex0 : add index 0 = index := Nat.mod_eq_of_lt hindex
  unfold cbufExtend
  simp only [hvalid,decide_eq_false_iff_not]
  by_cases hin : sub index cbuf.start + size ≤ cbufSize cbuf
  · have hsame : add cbuf.start (cbufSize cbuf) = cbuf.endIndex := hend.symm
    rw [if_neg (by omega),Nat.max_eq_left hin,hsame,Nat.sub_eq_zero_of_le (by omega),hindex0,List.drop_zero,
      Nat.min_eq_left (by omega)]
  · have hnew : add cbuf.start (sub index cbuf.start + size) = add index size := by
      unfold sub add
      omega
    rw [if_pos hin,Nat.max_eq_right (by omega),hnew]
    by_cases hlong : size > cbuf.capacity
    · rw [if_pos hlong,sub_of_le hlong.le (by omega),Nat.min_eq_right hlong.le]
    · rw [if_neg hlong,Nat.sub_eq_zero_of_le (by omega),hindex0,List.drop_zero,Nat.min_eq_left (by omega)]

/-- The buffer with new contents and a new end, after `cbuf_update_start`. -/
theorem updateStart (h : cbuf.Valid) (cells' : ℕ → UInt8) {total : ℕ} (htotal : total < 2 ^ 32) :
    ∃ cbuf',cbufUpdateStart { cbuf with buf := cells', endIndex := add cbuf.start total } = cbuf' ∧ cbuf'.Valid ∧
      cbuf'.capacity = cbuf.capacity ∧ cbuf'.start = add cbuf.start (total - cbuf.capacity) ∧
      cbuf'.bytes = window cells' cbuf.capacity (cbuf.start + (total - cbuf.capacity)) (min total cbuf.capacity) := by
  have hs := h.start_lt
  have hcap := h.capacity_lt
  have hsize : cbufSize { cbuf with buf := cells', endIndex := add cbuf.start total } = total := by
    unfold cbufSize
    exact (sub_add_left cbuf.start total).trans (Nat.mod_eq_of_lt htotal)
  refine ⟨_,rfl,?_⟩
  unfold cbufUpdateStart
  rw [hsize]
  by_cases hover : total > cbuf.capacity
  · rw [if_pos hover]
    have hstart : sub (add cbuf.start total) cbuf.capacity = add cbuf.start (total - cbuf.capacity) := by
      unfold sub add
      omega
    have hfull : sub (add cbuf.start total) (add cbuf.start (total - cbuf.capacity)) = cbuf.capacity := by
      unfold sub add
      omega
    have hbytes : window cells' cbuf.capacity (add cbuf.start (total - cbuf.capacity)) cbuf.capacity =
        window cells' cbuf.capacity (cbuf.start + (total - cbuf.capacity)) cbuf.capacity :=
      window_congr (Nat.mod_mod_of_dvd _ h.dvd)
    dsimp only
    rw [hstart]
    refine ⟨⟨h.capacity,add_lt _ _,add_lt _ _,?_⟩,rfl,rfl,?_⟩
    · rw [cbufSize,hfull]
    · rw [Cbuf.bytes,cbufSize,hfull,hbytes,Nat.min_eq_right hover.le]
  · rw [if_neg hover]
    have hle : total ≤ cbuf.capacity := by omega
    refine ⟨⟨h.capacity,hs,add_lt _ _,?_⟩,rfl,?_,?_⟩
    · rw [hsize]
      exact hle
    · rw [Nat.sub_eq_zero_of_le hle]
      exact (Nat.mod_eq_of_lt hs).symm
    · rw [Cbuf.bytes,hsize,Nat.sub_eq_zero_of_le hle,Nat.add_zero,Nat.min_eq_left hle]

theorem rangeValid_end (h : cbuf.Valid) (hk : sub index cbuf.start ≤ cbufSize cbuf) :
    cbufRangeValid cbuf index cbuf.endIndex = true := by
  have hs := h.start_lt
  have he := h.endIndex_lt
  have hle := h.size_le
  have hcap := h.capacity_lt
  have hend := h.size_eq
  simp only [cbufRangeValid,Bool.and_eq_true,decide_eq_true_eq]
  generalize hn : cbufSize cbuf = m at *
  unfold sub at *
  omega

/-- The bytes from `index` on are replaced, and the oldest ones are lost when there are too many. -/
theorem write (h : cbuf.Valid) (hbase : base + cbuf.capacity < 2 ^ 32) (hindex : index < 2 ^ 32)
    (hk : sub index cbuf.start ≤ cbufSize cbuf) (hroom : buf.length + cbuf.capacity < 2 ^ 32)
    (hidle : ¬(buf = [] ∧ index % cbuf.capacity = 0)) :
    ∃ cbuf',cbufWrite base cbuf index buf buf.length = some (.ok cbuf') ∧ cbuf'.Valid ∧
      cbuf'.capacity = cbuf.capacity ∧
      cbuf'.start = add cbuf.start ((splice cbuf.bytes (sub index cbuf.start) buf).length - cbuf.capacity) ∧
      cbuf'.bytes = (splice cbuf.bytes (sub index cbuf.start) buf).drop
        ((splice cbuf.bytes (sub index cbuf.start) buf).length - cbuf.capacity) := by
  have hs := h.start_lt
  have he := h.endIndex_lt
  have hle := h.size_le
  have hcap := h.capacity_lt
  have hvalid := h.rangeValid_end hk
  have hlength : (buf.drop (buf.length - cbuf.capacity)).length = min buf.length cbuf.capacity := by
    rw [List.length_drop]
    omega
  have hmod : add index (buf.length - cbuf.capacity) % cbuf.capacity =
      (index + (buf.length - cbuf.capacity)) % cbuf.capacity := Nat.mod_mod_of_dvd _ h.dvd
  have hidle' : ¬((buf.drop (buf.length - cbuf.capacity)).length = 0 ∧
      add index (buf.length - cbuf.capacity) % cbuf.capacity = 0) := by
    rintro ⟨hzero,hfirst⟩
    have hnil : buf.length = 0 := by omega
    rw [hmod,hnil,Nat.zero_sub,Nat.add_zero] at hfirst
    exact hidle ⟨List.eq_nil_of_length_eq_zero hnil,hfirst⟩
  obtain ⟨cells',hstore,hwrote⟩ := h.store hbase (by omega) hidle'
    (add cbuf.start (max (cbufSize cbuf) (sub index cbuf.start + buf.length)))
  have hwrote' : Wrote cbuf.buf cells' cbuf.capacity
      (cbuf.start + sub index cbuf.start + (buf.length - cbuf.capacity)) (buf.drop (buf.length - cbuf.capacity)) := by
    apply hwrote.congr
    rw [hmod,← Nat.mod_mod_of_dvd (cbuf.start + _ + _) h.dvd,← Nat.mod_mod_of_dvd (index + _) h.dvd]
    congr 1
    unfold sub
    omega
  rw [hlength] at hstore
  have hbytes := window_write hwrote' hle hk
  obtain ⟨cbuf',hupdate,hvalid',hcapacity',hstart',hbytes'⟩ :=
    h.updateStart cells' (show max (cbufSize cbuf) (sub index cbuf.start + buf.length) < 2 ^ 32 by omega)
  have hall : (splice cbuf.bytes (sub index cbuf.start) buf).length =
      max (cbufSize cbuf) (sub index cbuf.start + buf.length) := by
    rw [length_splice (by rw [length_bytes]; exact hk),length_bytes]
  refine ⟨cbuf',?_,hvalid',hcapacity',?_,?_⟩
  · rw [cbufWrite,if_neg (by rw [hvalid]; simp),h.extend hindex hk hroom]
    dsimp only
    rw [hstore,Option.map_some,hupdate]
  · rw [hstart',hall]
  · rw [hbytes',hall,hbytes]
    rfl

theorem write_idle (h : cbuf.Valid) (hbase : base + cbuf.capacity < 2 ^ 32) (hindex : index < 2 ^ 32)
    (hk : sub index cbuf.start ≤ cbufSize cbuf) (hfirst : index % cbuf.capacity = 0) :
    cbufWrite base cbuf index [] 0 = none := by
  have hcap := h.capacity_lt
  have hindex0 : add index 0 = index := Nat.mod_eq_of_lt hindex
  rw [cbufWrite,if_neg (by rw [h.rangeValid_end hk]; simp),h.extend hindex hk (by omega)]
  dsimp only
  rw [Nat.zero_sub,hindex0,List.drop_zero,Nat.zero_min,h.store_idle hbase hfirst]
  rfl

/-- There must be a byte at the index. -/
theorem rangeValid_byte (h : cbuf.Valid) (index : ℕ) :
    cbufRangeValid cbuf index (add index 1) = decide (sub index cbuf.start < cbufSize cbuf) := by
  have hs := h.start_lt
  have he := h.endIndex_lt
  have hle := h.size_le
  have hcap := h.capacity_le
  have hend := h.size_eq
  rw [Bool.eq_iff_iff]
  simp only [cbufRangeValid,Bool.and_eq_true,decide_eq_true_eq]
  generalize hn : cbufSize cbuf = m at *
  unfold sub add at *
  omega

theorem read (h : cbuf.Valid) (hbase : base + cbuf.capacity < 2 ^ 32)
    (hk : sub index cbuf.start < cbufSize cbuf) (hidle : ¬(sizep = 0 ∧ index % cbuf.capacity = 0)) :
    cbufRead base cbuf index sizep = some (.ok ((cbuf.bytes.drop (sub index cbuf.start)).take sizep)) := by
  have hs := h.start_lt
  have hle := h.size_le
  have hcap := h.capacity_lt
  have hlt := Nat.mod_lt index hcap.1
  obtain ⟨hpointer,hoffset,hskip⟩ := h.pointer hbase index
  have hleft : sub cbuf.endIndex index = cbufSize cbuf - sub index cbuf.start := by
    have hend := h.size_eq
    generalize hn : cbufSize cbuf = m at *
    unfold sub at *
    omega
  obtain ⟨count,hcount⟩ : ∃ count,count = min sizep (cbufSize cbuf - sub index cbuf.start) := ⟨_,rfl⟩
  have hif : (if sizep > sub cbuf.endIndex index then sub cbuf.endIndex index else sizep) = count := by
    rw [hleft,hcount]
    split_ifs <;> omega
  have hbytes : (cbuf.bytes.drop (sub index cbuf.start)).take sizep = window cbuf.buf cbuf.capacity index count := by
    rw [Cbuf.bytes,window_drop hk.le,window_take,hcount]
    apply window_congr
    rw [← Nat.mod_mod_of_dvd (cbuf.start + _) h.dvd,← Nat.mod_mod_of_dvd index h.dvd]
    congr 1
    unfold sub
    omega
  have hwraps := h.wraps_iff hbase (by omega : count ≤ cbuf.capacity) index
  have htest : (add (add base (cbufIndex cbuf index)) count > base ∧
      add (add base (cbufIndex cbuf index)) count ≤ add base cbuf.capacity) ↔
      ¬(cbuf.capacity < index % cbuf.capacity + count ∨ (count = 0 ∧ index % cbuf.capacity = 0)) := by
    rw [← hwraps]
    omega
  have hvalid : cbufRangeValid cbuf index (add index 1) = true := by
    rw [h.rangeValid_byte index,decide_eq_true_eq]
    exact hk
  unfold cbufRead
  rw [if_neg (by rw [hvalid]; simp)]
  simp only [hif,htest]
  rw [hpointer,hskip,hbytes]
  by_cases hover : cbuf.capacity < index % cbuf.capacity + count
  · have hrest : sub count (cbuf.capacity - index % cbuf.capacity) =
        count - (cbuf.capacity - index % cbuf.capacity) := sub_of_le (by omega) (by omega)
    have hzero : sub base base = 0 := sub_same (by omega)
    rw [if_neg (by simp [hover])]
    simp only [copyFrom,hoffset,hrest,hzero]
    rw [if_pos (by omega),if_pos (by omega)]
    simp only [bind,Option.bind,pure]
    rw [slice_wrapped hcap.1 (by omega) hover.le]
  · have hin : index % cbuf.capacity + count ≤ cbuf.capacity := by omega
    rw [if_pos (by omega),copyFrom,hoffset,if_pos (by omega),slice_straight hin]
    rfl

theorem read_idle (h : cbuf.Valid) (hbase : base + cbuf.capacity < 2 ^ 32)
    (hk : sub index cbuf.start < cbufSize cbuf) (hfirst : index % cbuf.capacity = 0) :
    cbufRead base cbuf index 0 = none := by
  have hcap := h.capacity_lt
  obtain ⟨hpointer,hoffset,hskip⟩ := h.pointer hbase index
  have hwraps := h.wraps_iff hbase (Nat.zero_le _) index
  have hvalid : cbufRangeValid cbuf index (add index 1) = true := by
    rw [h.rangeValid_byte index,decide_eq_true_eq]
    exact hk
  have hif : (if 0 > sub cbuf.endIndex index then sub cbuf.endIndex index else 0) = 0 := if_neg (Nat.not_lt_zero _)
  unfold cbufRead
  rw [if_neg (by rw [hvalid]; simp)]
  simp only [hif]
  rw [if_neg (by have := hwraps.mpr (.inr ⟨rfl,hfirst⟩); omega),hpointer,hskip,copyFrom,if_neg (by omega)]
  rfl

end Cbuf.Valid

end X1.Lib
