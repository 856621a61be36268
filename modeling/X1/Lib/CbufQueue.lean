import X1.Lib.CbufRange

/-! # The circular buffer as a queue

Seen from outside, the buffer is a list of bytes and the index of the first of them. Every run
of the functions of lib/cbuf.c is a run of that queue, as long as no call copies nothing at
the beginning of the storage.
-/
namespace X1.Lib
open X1.Word X1.Window

inductive Op where
  | pushb (byte : UInt8) (erase : Bool)
  | popb
  | push (data : List UInt8) (erase : Bool)
  | pop (size : ℕ)
  | write (index : ℕ) (data : List UInt8)
  | read (index size : ℕ)
  | clear
  deriving DecidableEq

/-- The buffer of the caller has an address, as the storage has. -/
def Op.Fits (capacity : ℕ) : Op → Prop
  | .push data _ => data.length + capacity < 2 ^ 32
  | .write index data => index < 2 ^ 32 ∧ data.length + capacity < 2 ^ 32
  | _ => True

/-- What a call returns, and the bytes it hands out. -/
abbrev Result := Except RangeError (List UInt8)

namespace Cbuf
variable (base : ℕ) (cbuf : Cbuf)

/-- The buffer after a call that may fail. -/
def settle : Except RangeError Cbuf → Result × Cbuf
  | .error error => (.error error,cbuf)
  | .ok cbuf' => (.ok [],cbuf')

def perform : Op → Option (Result × Cbuf)
  | .pushb byte erase => some (cbuf.settle ((cbufPushb cbuf byte erase).mapError fun _ => .again))
  | .popb =>
    match cbufPopb cbuf with
    | .error _ => some (.error .again,cbuf)
    | .ok (byte,cbuf') => some (.ok [byte],cbuf')
  | .push data erase => (cbufPush base cbuf data data.length erase).map cbuf.settle
  | .pop size =>
    (cbufPop base cbuf size).map fun
      | .error error => (.error error,cbuf)
      | .ok (bytes,cbuf') => (.ok bytes,cbuf')
  | .write index data => (cbufWrite base cbuf index data data.length).map cbuf.settle
  | .read index size => (cbufRead base cbuf index size).map fun r => (r,cbuf)
  | .clear => some (.ok [],cbufClear cbuf)

/-- One call after the other. -/
def run (base : ℕ) : Cbuf → List Op → Option (List Result × Cbuf)
  | cbuf,[] => some ([],cbuf)
  | cbuf,op :: ops => do
    let (r,cbuf) ← cbuf.perform base op
    let (rs,cbuf) ← run base cbuf ops
    return (r :: rs,cbuf)

end Cbuf

/-- The queue that the buffer stands for. -/
structure Queue where
  capacity : ℕ
  start : ℕ
  bytes : List UInt8
  deriving DecidableEq

namespace Queue
variable (q : Queue)

def empty (capacity : ℕ) : Queue := ⟨capacity,CBUF_INIT_INDEX,[]⟩

/-- The position of an index. -/
def position (index : ℕ) : ℕ := sub index q.start

/-- The last bytes that there is room for. -/
def keep (bytes : List UInt8) : Queue :=
  { q with start := add q.start (bytes.length - q.capacity), bytes := bytes.drop (bytes.length - q.capacity) }

def push (data : List UInt8) (erase : Bool) : Result × Queue :=
  if erase = false ∧ q.capacity < q.bytes.length + data.length then (.error .again,q)
  else (.ok [],q.keep (q.bytes ++ data))

def pop (size : ℕ) : Result × Queue :=
  if q.bytes = [] then (.error .again,q)
  else (.ok (q.bytes.take size),
    { q with start := add q.start (q.bytes.take size).length, bytes := q.bytes.drop size })

def write (index : ℕ) (data : List UInt8) : Result × Queue :=
  if q.position index ≤ q.bytes.length then (.ok [],q.keep (splice q.bytes (q.position index) data))
  else (.error .inval,q)

def read (index size : ℕ) : Result :=
  if q.position index < q.bytes.length then .ok ((q.bytes.drop (q.position index)).take size) else .error .inval

def perform : Op → Result × Queue
  | .pushb byte erase => q.push [byte] erase
  | .popb => q.pop 1
  | .push data erase => q.push data erase
  | .pop size => q.pop size
  | .write index data => q.write index data
  | .read index size => (q.read index size,q)
  | .clear => (.ok [],{ q with start := add q.start q.bytes.length, bytes := [] })

def run : Queue → List Op → List Result × Queue
  | q,[] => ([],q)
  | q,op :: ops => ((q.perform op).1 :: ((q.perform op).2.run ops).1,((q.perform op).2.run ops).2)

theorem push_capacity (data : List UInt8) (erase : Bool) : (q.push data erase).2.capacity = q.capacity := by
  unfold push
  split_ifs <;> rfl

theorem pop_capacity (size : ℕ) : (q.pop size).2.capacity = q.capacity := by
  unfold pop
  split_ifs <;> rfl

theorem perform_capacity (op : Op) : (q.perform op).2.capacity = q.capacity := by
  cases op with
  | pushb byte erase => exact q.push_capacity [byte] erase
  | popb => exact q.pop_capacity 1
  | push data erase => exact q.push_capacity data erase
  | pop size => exact q.pop_capacity size
  | write index data =>
    simp only [perform,write]
    split_ifs <;> rfl
  | read index size => rfl
  | clear => rfl

/-- A call that is not refused, and has nothing to copy at the beginning of the storage. -/
def Idle : Op → Prop
  | .push data _ => data = [] ∧ add q.start q.bytes.length % q.capacity = 0
  | .pop size => size = 0 ∧ q.bytes ≠ [] ∧ q.start % q.capacity = 0
  | .write index data => data = [] ∧ q.position index ≤ q.bytes.length ∧ index % q.capacity = 0
  | .read index size => size = 0 ∧ q.position index < q.bytes.length ∧ index % q.capacity = 0
  | _ => False

/-- One of the calls is such a call when it is made. -/
def Idles : Queue → List Op → Prop
  | _,[] => False
  | q,op :: ops => q.Idle op ∨ (q.perform op).2.Idles ops

end Queue

def Cbuf.queue (cbuf : Cbuf) : Queue := ⟨cbuf.capacity,cbuf.start,cbuf.bytes⟩

namespace Cbuf.Valid
variable {cbuf : Cbuf} {base index size : ℕ} {data : List UInt8} {op : Op}

theorem queue_keep {cbuf' : Cbuf} {bytes : List UInt8} (hcapacity : cbuf'.capacity = cbuf.capacity)
    (hstart : cbuf'.start = add cbuf.start (bytes.length - cbuf.capacity))
    (hbytes : cbuf'.bytes = bytes.drop (bytes.length - cbuf.capacity)) : cbuf'.queue = cbuf.queue.keep bytes := by
  unfold Cbuf.queue Queue.keep
  rw [hcapacity,hstart,hbytes]

theorem queue_bytes_eq_nil : cbuf.queue.bytes = [] ↔ cbufSize cbuf = 0 := window_eq_nil

theorem perform_write (h : cbuf.Valid) (hbase : base + cbuf.capacity < 2 ^ 32) (hindex : index < 2 ^ 32)
    (hroom : data.length + cbuf.capacity < 2 ^ 32) (hidle : ¬cbuf.queue.Idle (.write index data)) :
    ∃ cbuf',(cbufWrite base cbuf index data data.length).map cbuf.settle =
        some ((cbuf.queue.write index data).1,cbuf') ∧ cbuf'.Valid ∧ cbuf'.queue = (cbuf.queue.write index data).2 := by
  have hlength : cbuf.queue.bytes.length = cbufSize cbuf := length_bytes
  unfold Queue.write
  rw [hlength]
  by_cases hk : cbuf.queue.position index ≤ cbufSize cbuf
  · obtain ⟨cbuf',hwrite,hvalid,hcapacity,hstart,hbytes⟩ := h.write hbase hindex hk hroom fun hnone =>
      hidle ⟨hnone.1,by rw [hlength]; exact hk,hnone.2⟩
    refine ⟨cbuf',?_,hvalid,?_⟩
    · rw [hwrite,if_pos hk]
      rfl
    · rw [if_pos hk]
      exact queue_keep hcapacity hstart hbytes
  · refine ⟨cbuf,?_,h,?_⟩
    · rw [cbufWrite_inval hk,if_neg hk]
      rfl
    · rw [if_neg hk]

theorem position_end (h : cbuf.Valid) :
    cbuf.endIndex = add cbuf.start cbuf.bytes.length ∧ cbuf.queue.position cbuf.endIndex = cbuf.bytes.length := by
  rw [length_bytes]
  exact ⟨h.size_eq,rfl⟩

theorem write_end (h : cbuf.Valid) :
    cbuf.queue.write cbuf.endIndex data = (.ok [],cbuf.queue.keep (cbuf.bytes ++ data)) := by
  have hposition : cbuf.queue.position cbuf.endIndex = cbuf.queue.bytes.length := h.position_end.2
  rw [Queue.write,if_pos hposition.le,splice_end hposition.symm]
  rfl

theorem perform_push (h : cbuf.Valid) (hbase : base + cbuf.capacity < 2 ^ 32)
    (hroom : data.length + cbuf.capacity < 2 ^ 32) (erase : Bool) (hidle : ¬cbuf.queue.Idle (.push data erase)) :
    ∃ cbuf',(cbufPush base cbuf data data.length erase).map cbuf.settle =
        some ((cbuf.queue.push data erase).1,cbuf') ∧ cbuf'.Valid ∧ cbuf'.queue = (cbuf.queue.push data erase).2 := by
  have hle := h.size_le
  have hfree : sub cbuf.capacity (cbufSize cbuf) = cbuf.capacity - cbufSize cbuf := sub_of_le hle h.capacity_lt.2
  have hfull : (erase = false ∧ data.length > sub cbuf.capacity (cbufSize cbuf)) ↔
      (erase = false ∧ cbuf.queue.capacity < cbuf.queue.bytes.length + data.length) := by
    have hlength : cbuf.queue.bytes.length = cbufSize cbuf := length_bytes
    have hcapacity : cbuf.queue.capacity = cbuf.capacity := rfl
    rw [hfree,hlength,hcapacity]
    refine and_congr_right fun _ => ?_
    omega
  unfold cbufPush Queue.push
  simp only [hfull]
  by_cases hno : erase = false ∧ cbuf.queue.capacity < cbuf.queue.bytes.length + data.length
  · exact ⟨cbuf,by rw [if_pos hno,if_pos hno]; rfl,h,by rw [if_pos hno]⟩
  · have hidle' : ¬cbuf.queue.Idle (.write cbuf.endIndex data) := by
      rintro ⟨hnil,-,hfirst⟩
      refine hidle ⟨hnil,?_⟩
      rw [h.position_end.1] at hfirst
      exact hfirst
    obtain ⟨cbuf',hwrite,hvalid,hqueue⟩ := h.perform_write hbase h.endIndex_lt hroom hidle'
    rw [h.write_end] at hwrite hqueue
    rw [if_neg hno,if_neg hno]
    exact ⟨cbuf',hwrite,hvalid,hqueue⟩

theorem perform_pushb (h : cbuf.Valid) (byte : UInt8) (erase : Bool) :
    ∃ cbuf',cbuf.settle ((cbufPushb cbuf byte erase).mapError fun _ => .again) =
        ((cbuf.queue.push [byte] erase).1,cbuf') ∧ cbuf'.Valid ∧ cbuf'.queue = (cbuf.queue.push [byte] erase).2 := by
  have hle := h.size_le
  have hcap := h.capacity_lt
  have hlength : cbuf.queue.bytes.length = cbufSize cbuf := length_bytes
  have hfull : (erase = false ∧ sub cbuf.capacity (cbufSize cbuf) = 0) ↔
      (erase = false ∧ cbuf.queue.capacity < cbuf.queue.bytes.length + [byte].length) := by
    have hcapacity : cbuf.queue.capacity = cbuf.capacity := rfl
    rw [sub_of_le hle hcap.2,hlength,hcapacity,List.length_singleton]
    refine and_congr_right fun _ => ?_
    omega
  unfold cbufPushb Queue.push
  simp only [hfull]
  by_cases hno : erase = false ∧ cbuf.queue.capacity < cbuf.queue.bytes.length + [byte].length
  · exact ⟨cbuf,by rw [if_pos hno,if_pos hno]; rfl,h,by rw [if_pos hno]⟩
  · rw [if_neg hno,if_neg hno]
    have hend : add cbuf.endIndex 1 = add cbuf.start (cbufSize cbuf + 1) := by
      rw [h.size_eq]
      unfold add
      omega
    have hcells : Function.update cbuf.buf (cbufIndex cbuf cbuf.endIndex) byte =
        overwrite cbuf.buf (cbuf.endIndex % cbuf.capacity) [byte] := by
      rw [h.index_eq]
      funext i
      unfold overwrite
      by_cases hi : i = cbuf.endIndex % cbuf.capacity
      · simp [hi]
      · rw [Function.update_of_ne hi]
        split_ifs with hge
        · rw [List.getD_eq_default _ _ (by simp only [List.length_singleton]; omega)]
        · rfl
    have hlt := Nat.mod_lt cbuf.endIndex hcap.1
    have hwrote : Wrote cbuf.buf (overwrite cbuf.buf (cbuf.endIndex % cbuf.capacity) [byte]) cbuf.capacity
        (cbuf.start + cbufSize cbuf + ([byte].length - cbuf.capacity))
        ([byte].drop ([byte].length - cbuf.capacity)) := by
      rw [List.length_singleton,Nat.sub_eq_zero_of_le hcap.1,List.drop_zero,Nat.add_zero]
      exact (wrote_overwrite (by rw [List.length_singleton]; omega)).congr h.endIndex_mod.symm
    have hbytes := window_write hwrote hle (Nat.le_refl _)
    rw [List.length_singleton,Nat.max_eq_right (Nat.le_succ _)] at hbytes
    have htotal : cbufSize cbuf + 1 < 2 ^ 32 := by
      have hhalf := h.capacity_le
      omega
    obtain ⟨cbuf',hupdate,hvalid,hcapacity,hstart,hbytes'⟩ := h.updateStart
      (overwrite cbuf.buf (cbuf.endIndex % cbuf.capacity) [byte]) htotal
    have hall : (cbuf.queue.bytes ++ [byte]).length = cbufSize cbuf + 1 := by
      rw [List.length_append,hlength,List.length_singleton]
    have hsplice : splice (window cbuf.buf cbuf.capacity cbuf.start (cbufSize cbuf)) (cbufSize cbuf) [byte] =
        cbuf.queue.bytes ++ [byte] := splice_end length_window
    rw [hsplice] at hbytes
    refine ⟨cbuf',?_,hvalid,?_⟩
    · rw [hcells,hend,hupdate]
      rfl
    · exact queue_keep hcapacity (by rw [hall]; exact hstart) (by rw [hall,hbytes',hbytes])

theorem advance (h : cbuf.Valid) {n : ℕ} (hn : n ≤ cbufSize cbuf) :
    ({ cbuf with start := add cbuf.start n } : Cbuf).Valid ∧
      ({ cbuf with start := add cbuf.start n } : Cbuf).queue =
        { cbuf.queue with start := add cbuf.start n, bytes := cbuf.bytes.drop n } := by
  have hs := h.start_lt
  have hle := h.size_le
  have hsize : cbufSize { cbuf with start := add cbuf.start n } = cbufSize cbuf - n := by
    have hend := h.size_eq
    have he := h.endIndex_lt
    have hsub : cbufSize { cbuf with start := add cbuf.start n } = sub cbuf.endIndex (add cbuf.start n) := rfl
    rw [hsub]
    have hlt := h.capacity_lt.2
    generalize cbufSize cbuf = m at *
    unfold sub add
    omega
  refine ⟨⟨h.capacity,add_lt _ _,h.endIndex_lt,?_⟩,?_⟩
  · rw [hsize]
    exact (Nat.sub_le _ _).trans hle
  · unfold Cbuf.queue Cbuf.bytes
    rw [hsize,window_drop hn]
    exact congrArg (Queue.mk _ _) (window_congr (Nat.mod_mod_of_dvd _ h.dvd))

theorem perform_pop (h : cbuf.Valid) (hbase : base + cbuf.capacity < 2 ^ 32)
    (hidle : ¬cbuf.queue.Idle (.pop size)) :
    ∃ cbuf',cbuf.perform base (.pop size) = some ((cbuf.queue.pop size).1,cbuf') ∧ cbuf'.Valid ∧
      cbuf'.queue = (cbuf.queue.pop size).2 := by
  have hempty : cbuf.queue.bytes = [] ↔ cbufSize cbuf = 0 := queue_bytes_eq_nil
  unfold Cbuf.perform
  dsimp only
  unfold cbufPop Queue.pop
  by_cases hnone : cbufSize cbuf = 0
  · exact ⟨cbuf,by rw [if_pos hnone,if_pos (hempty.mpr hnone)]; rfl,h,by rw [if_pos (hempty.mpr hnone)]⟩
  · have hsome : ¬cbuf.queue.bytes = [] := fun hnil => hnone (hempty.mp hnil)
    have hzero : sub cbuf.start cbuf.start = 0 := sub_same h.start_lt
    have hread := h.read hbase (by omega : sub cbuf.start cbuf.start < cbufSize cbuf) fun hno =>
      hidle ⟨hno.1,hsome,hno.2⟩
    rw [hzero,List.drop_zero] at hread
    have hcount : (cbuf.bytes.take size).length ≤ cbufSize cbuf := by
      rw [← length_bytes]
      exact List.length_take_le' _ _
    obtain ⟨hvalid,hqueue⟩ := h.advance hcount
    rw [if_neg hnone,if_neg hsome,hread]
    refine ⟨_,rfl,hvalid,?_⟩
    rw [hqueue]
    refine congrArg (Queue.mk _ _) ?_
    change cbuf.bytes.drop (cbuf.bytes.take size).length = cbuf.bytes.drop size
    rw [List.length_take]
    rcases Nat.le_total size cbuf.bytes.length with hle | hle
    · rw [Nat.min_eq_left hle]
    · rw [Nat.min_eq_right hle,List.drop_length,List.drop_eq_nil_of_le hle]

theorem perform_popb (h : cbuf.Valid) :
    ∃ cbuf',cbuf.perform base .popb = some ((cbuf.queue.pop 1).1,cbuf') ∧ cbuf'.Valid ∧
      cbuf'.queue = (cbuf.queue.pop 1).2 := by
  have hempty : cbuf.queue.bytes = [] ↔ cbufSize cbuf = 0 := queue_bytes_eq_nil
  unfold Cbuf.perform
  dsimp only
  unfold cbufPopb Queue.pop
  by_cases hnone : cbufSize cbuf = 0
  · exact ⟨cbuf,by rw [if_pos hnone,if_pos (hempty.mpr hnone)],h,by rw [if_pos (hempty.mpr hnone)]⟩
  · have hsome : ¬cbuf.queue.bytes = [] := fun hnil => hnone (hempty.mp hnil)
    obtain ⟨n,hn⟩ := Nat.exists_eq_succ_of_ne_zero hnone
    have hfirst : cbuf.bytes = cbuf.buf (cbuf.start % cbuf.capacity) ::
        window cbuf.buf cbuf.capacity (cbuf.start + 1) n := by
      rw [Cbuf.bytes,hn]
      exact window_succ
    have htake : cbuf.queue.bytes.take 1 = [cbuf.buf (cbufIndex cbuf cbuf.start)] := by
      change cbuf.bytes.take 1 = _
      rw [hfirst,h.index_eq]
      rfl
    obtain ⟨hvalid,hqueue⟩ := h.advance (by omega : 1 ≤ cbufSize cbuf)
    rw [if_neg hnone,if_neg hsome,htake]
    exact ⟨_,rfl,hvalid,hqueue⟩

theorem perform (h : cbuf.Valid) (hbase : base + cbuf.capacity < 2 ^ 32) (hop : op.Fits cbuf.capacity)
    (hidle : ¬cbuf.queue.Idle op) :
    ∃ cbuf',cbuf.perform base op = some ((cbuf.queue.perform op).1,cbuf') ∧ cbuf'.Valid ∧
      cbuf'.queue = (cbuf.queue.perform op).2 := by
  cases op with
  | pushb byte erase =>
    obtain ⟨cbuf',hpush,hvalid,hqueue⟩ := h.perform_pushb byte erase
    exact ⟨cbuf',congrArg some hpush,hvalid,hqueue⟩
  | popb => exact h.perform_popb
  | push data erase => exact h.perform_push hbase hop erase hidle
  | pop size => exact h.perform_pop hbase hidle
  | write index data => exact h.perform_write hbase hop.1 hop.2 hidle
  | read index size =>
    have hlength : cbuf.queue.bytes.length = cbufSize cbuf := length_bytes
    refine ⟨cbuf,?_,h,rfl⟩
    unfold Cbuf.perform Queue.perform
    dsimp only
    unfold Queue.read
    rw [hlength]
    by_cases hk : cbuf.queue.position index < cbufSize cbuf
    · rw [if_pos hk,h.read hbase hk fun hno => hidle ⟨hno.1,by rw [hlength]; exact hk,hno.2⟩]
      rfl
    · have hvalid : cbufRangeValid cbuf index (add index 1) = false := by
        rw [h.rangeValid_byte index,decide_eq_false_iff_not]
        exact hk
      rw [if_neg hk,cbufRead,if_pos hvalid]
      rfl
  | clear =>
    obtain ⟨hvalid,hqueue⟩ := h.advance (Nat.le_refl (cbufSize cbuf))
    have hend : cbufClear cbuf = { cbuf with start := add cbuf.start (cbufSize cbuf) } := by
      rw [cbufClear]
      exact congrArg (fun start => ({ cbuf with start := start } : Cbuf)) h.size_eq
    refine ⟨_,rfl,by rw [hend]; exact hvalid,?_⟩
    rw [hend,hqueue]
    unfold Queue.perform
    dsimp only
    rw [← length_bytes,List.drop_length]
    rfl

/-- A call with nothing to copy at the beginning of the storage goes beyond it. -/
theorem perform_idle (h : cbuf.Valid) (hbase : base + cbuf.capacity < 2 ^ 32) (hop : op.Fits cbuf.capacity)
    (hidle : cbuf.queue.Idle op) : cbuf.perform base op = none := by
  have hlength : cbuf.queue.bytes.length = cbufSize cbuf := length_bytes
  cases op with
  | pushb byte erase => exact hidle.elim
  | popb => exact hidle.elim
  | push data erase =>
    obtain ⟨rfl,hfirst⟩ := hidle
    have hend := h.position_end.1
    have hwrite : cbufWrite base cbuf cbuf.endIndex [] 0 = none :=
      h.write_idle hbase h.endIndex_lt (Nat.le_refl _) (by rw [hend]; exact hfirst)
    unfold Cbuf.perform
    dsimp only
    unfold cbufPush
    rw [List.length_nil,if_neg (fun hno => Nat.not_lt_zero _ hno.2),hwrite]
    rfl
  | pop size =>
    obtain ⟨rfl,hsome,hfirst⟩ := hidle
    have hnone : ¬cbufSize cbuf = 0 := fun hzero => hsome (List.length_eq_zero_iff.mp (hlength.trans hzero))
    have hzero : sub cbuf.start cbuf.start = 0 := sub_same h.start_lt
    have hread : cbufRead base cbuf cbuf.start 0 = none := h.read_idle hbase (by omega) hfirst
    unfold Cbuf.perform
    dsimp only
    unfold cbufPop
    rw [if_neg hnone,hread]
    rfl
  | write index data =>
    obtain ⟨rfl,hk,hfirst⟩ := hidle
    unfold Cbuf.perform
    dsimp only
    rw [List.length_nil,h.write_idle hbase hop.1 (by rw [← hlength]; exact hk) hfirst]
    rfl
  | read index size =>
    obtain ⟨rfl,hk,hfirst⟩ := hidle
    unfold Cbuf.perform
    dsimp only
    rw [h.read_idle hbase (by rw [← hlength]; exact hk) hfirst]
    rfl
  | clear => exact hidle.elim

/-- A run of calls is a run of the queue, up to a call that goes beyond the storage. -/
theorem run {ops : List Op} (h : cbuf.Valid) (hbase : base + cbuf.capacity < 2 ^ 32)
    (hops : ∀ op ∈ ops,op.Fits cbuf.capacity) :
    (cbuf.queue.Idles ops → cbuf.run base ops = none) ∧
      (¬cbuf.queue.Idles ops → ∃ cbuf',cbuf.run base ops = some ((cbuf.queue.run ops).1,cbuf') ∧
        cbuf'.queue = (cbuf.queue.run ops).2) := by
  induction ops generalizing cbuf with
  | nil => exact ⟨False.elim,fun _ => ⟨cbuf,rfl,rfl⟩⟩
  | cons op ops ih =>
    have hop := hops op (by simp)
    by_cases hidle : cbuf.queue.Idle op
    · refine ⟨fun _ => ?_,fun hno => (hno (.inl hidle)).elim⟩
      rw [Cbuf.run,h.perform_idle hbase hop hidle]
      rfl
    · obtain ⟨cbuf₁,hperform,hvalid,hqueue⟩ := h.perform hbase hop hidle
      have hcapacity : cbuf₁.capacity = cbuf.capacity :=
        (congrArg Queue.capacity hqueue).trans (cbuf.queue.perform_capacity op)
      obtain ⟨hstuck,hgoes⟩ := ih hvalid (by rw [hcapacity]; exact hbase) fun op' hop' => by
        rw [hcapacity]
        exact hops op' (by simp [hop'])
      rw [hqueue] at hstuck hgoes
      constructor
      · rintro (hfirst | hlater)
        · exact (hidle hfirst).elim
        · rw [Cbuf.run,hperform]
          simp only [bind,Option.bind,hstuck hlater]
      · intro hno
        obtain ⟨cbuf',hrun,hlast⟩ := hgoes fun hlater => hno (.inr hlater)
        refine ⟨cbuf',?_,hlast⟩
        rw [Cbuf.run,hperform]
        simp only [bind,Option.bind,hrun]
        rfl

end Cbuf.Valid

theorem queue_cbufInit (buf : ℕ → UInt8) {k : ℕ} (hk : k < 32) :
    (cbufInit buf (2 ^ k)).queue = Queue.empty (2 ^ k) := by
  unfold Cbuf.queue
  rw [(valid_cbufInit buf hk).2]
  rfl

/-- Every run of the functions from `cbuf_init` on gives what the queue gives, whatever the address of the
storage and however the indices wrap around, unless a call with nothing to copy is made at the beginning of
the storage: then, and only then, memory beyond the storage or the buffer of the caller is accessed. -/
theorem cbuf_refines_queue (base k : ℕ) (buf : ℕ → UInt8) (ops : List Op) (hk : k < 32)
    (hbase : base + 2 ^ k < 2 ^ 32) (hops : ∀ op ∈ ops,op.Fits (2 ^ k)) :
    ((cbufInit buf (2 ^ k)).run base ops = none ↔ (Queue.empty (2 ^ k)).Idles ops) ∧
      ∀ results cbuf,(cbufInit buf (2 ^ k)).run base ops = some (results,cbuf) →
        results = ((Queue.empty (2 ^ k)).run ops).1 ∧ cbuf.queue = ((Queue.empty (2 ^ k)).run ops).2 := by
  obtain ⟨hstuck,hgoes⟩ := (valid_cbufInit buf hk).1.run hbase hops
  rw [queue_cbufInit buf hk] at hstuck hgoes
  by_cases hidles : (Queue.empty (2 ^ k)).Idles ops
  · refine ⟨iff_of_true (hstuck hidles) hidles,fun results cbuf hrun => ?_⟩
    rw [hstuck hidles] at hrun
    cases hrun
  · obtain ⟨cbuf',hrun',hqueue⟩ := hgoes hidles
    refine ⟨iff_of_false (by rw [hrun']; simp) hidles,fun results cbuf hrun => ?_⟩
    rw [hrun'] at hrun
    cases hrun
    exact ⟨rfl,hqueue⟩

/-- Bytes on both sides of the end of the storage, and of the wrap of the indices. -/
def wrappingOps : List Op :=
  [.push (List.replicate 300 1) false,.pop 300,.push (List.replicate 300 2) false,.pop 299]

/-- The indices start at a multiple of four. -/
theorem cbuf_refines_queue_samples :
    (cbufInit (fun _ => 0) (2 ^ 2)).run 4096 [.push [] false] = none ∧
      ∃ cbuf,(cbufInit (fun _ => 0) (2 ^ 9)).run 4096 wrappingOps =
        some ([.ok [],.ok (List.replicate 300 1),.ok [],.ok (List.replicate 299 2)],cbuf) ∧ cbuf.queue = ⟨2 ^ 9,99,[2]⟩ := by
  have hops : ∀ op ∈ wrappingOps,op.Fits (2 ^ 9) := by simp [-List.reduceReplicate,wrappingOps,Op.Fits]
  have hqueue : (Queue.empty (2 ^ 9)).run wrappingOps =
      ([.ok [],.ok (List.replicate 300 1),.ok [],.ok (List.replicate 299 2)],⟨2 ^ 9,99,[2]⟩) := by decide +kernel
  obtain ⟨hstuck,hgoes⟩ := cbuf_refines_queue 4096 9 (fun _ => 0) wrappingOps (by decide) (by decide) hops
  refine ⟨(cbuf_refines_queue 4096 2 (fun _ => 0) [.push [] false] (by decide) (by decide) (by simp [Op.Fits])).1.mpr
    (.inl ⟨rfl,by decide⟩),?_⟩
  cases hrun : (cbufInit (fun _ => 0) (2 ^ 9)).run 4096 wrappingOps with
  | none =>
    have hidles := hstuck.mp hrun
    simp [-List.reduceReplicate,wrappingOps,Queue.Idles,Queue.Idle] at hidles
  | some r =>
    obtain ⟨hresults,hlast⟩ := hgoes r.1 r.2 hrun
    rw [hqueue] at hresults hlast
    exact ⟨r.2,congrArg some (Prod.ext hresults rfl),hlast⟩

/-! ## What goes in comes out -/

/-- The bytes that a call offers. -/
def Op.offered : Op → List UInt8
  | .pushb byte _ => [byte]
  | .push data _ => data
  | _ => []

/-- The bytes that a call takes out of the buffer, when it returns `bytes`. -/
def Op.taken (bytes : List UInt8) : Op → List UInt8
  | .popb => bytes
  | .pop _ => bytes
  | _ => []

def Op.Erases : Op → Prop
  | .pushb _ erase => erase = true
  | .push _ erase => erase = true
  | _ => False

/-- A call that neither changes bytes in place nor throws them away. -/
def Op.Serial : Op → Prop
  | .write .. => False
  | .clear => False
  | _ => True

/-- All bytes that were accepted. -/
def accepted : List Op → List Result → List UInt8
  | op :: ops,.ok _ :: results => op.offered ++ accepted ops results
  | _ :: ops,.error _ :: results => accepted ops results
  | _,_ => []

/-- All bytes that were handed out. -/
def delivered : List Op → List Result → List UInt8
  | op :: ops,.ok bytes :: results => op.taken bytes ++ delivered ops results
  | _ :: ops,.error _ :: results => delivered ops results
  | _,_ => []

namespace Queue
variable {q : Queue} {op : Op}

/-- What a call leaves in the queue ends with what it has accepted; without erasing, nothing is lost. -/
theorem perform_serial (hop : op.Serial) :
    (∃ bytes,(q.perform op).1 = .ok bytes ∧ (q.perform op).2.bytes <:+ q.bytes ++ op.offered ∧
      (¬op.Erases → op.taken bytes ++ (q.perform op).2.bytes = q.bytes ++ op.offered)) ∨
    ∃ error,(q.perform op).1 = .error error ∧ (q.perform op).2 = q := by
  have hpush (data : List UInt8) (erase : Bool) :
      (∃ bytes,(q.push data erase).1 = .ok bytes ∧ (q.push data erase).2.bytes <:+ q.bytes ++ data ∧
        (¬erase = true → (q.push data erase).2.bytes = q.bytes ++ data)) ∨
      ∃ error,(q.push data erase).1 = .error error ∧ (q.push data erase).2 = q := by
    unfold push
    split_ifs with hno
    · exact .inr ⟨_,rfl,rfl⟩
    · refine .inl ⟨_,rfl,List.drop_suffix _ _,fun herase => ?_⟩
      have hroom : (q.bytes ++ data).length - q.capacity = 0 := by
        rw [List.length_append]
        have : ¬q.capacity < q.bytes.length + data.length := fun hover => hno ⟨by simpa using herase,hover⟩
        omega
      unfold keep
      rw [hroom,List.drop_zero]
  have hpop (size : ℕ) :
      (∃ bytes,(q.pop size).1 = .ok bytes ∧ (q.pop size).2.bytes <:+ q.bytes ++ [] ∧
        (¬False → bytes ++ (q.pop size).2.bytes = q.bytes ++ [])) ∨
      ∃ error,(q.pop size).1 = .error error ∧ (q.pop size).2 = q := by
    unfold pop
    rw [List.append_nil]
    split_ifs with hnone
    · exact .inr ⟨_,rfl,rfl⟩
    · exact .inl ⟨_,rfl,List.drop_suffix _ _,fun _ => List.take_append_drop size q.bytes⟩
  cases op with
  | pushb byte erase => exact hpush [byte] erase
  | push data erase => exact hpush data erase
  | popb => exact hpop 1
  | pop size => exact hpop size
  | write index data => exact hop.elim
  | read index size =>
    change (∃ bytes,q.read index size = .ok bytes ∧ q.bytes <:+ q.bytes ++ [] ∧
      (_ → [] ++ q.bytes = q.bytes ++ [])) ∨ ∃ error,q.read index size = .error error ∧ q = q
    rw [List.append_nil]
    cases q.read index size with
    | ok bytes => exact .inl ⟨bytes,rfl,List.suffix_refl _,fun _ => rfl⟩
    | error error => exact .inr ⟨error,rfl,rfl⟩
  | clear => exact hop.elim

theorem run_serial {ops : List Op} (hops : ∀ op ∈ ops,op.Serial) :
    (q.run ops).2.bytes <:+ q.bytes ++ accepted ops (q.run ops).1 ∧
      ((∀ op ∈ ops,¬op.Erases) →
        delivered ops (q.run ops).1 ++ (q.run ops).2.bytes = q.bytes ++ accepted ops (q.run ops).1) := by
  induction ops generalizing q with
  | nil => exact ⟨by simp [run,accepted],fun _ => by simp [run,accepted,delivered]⟩
  | cons op ops ih =>
    obtain ⟨hsuffix,hall⟩ := ih (q := (q.perform op).2) fun op' hop' => hops op' (by simp [hop'])
    rcases perform_serial (q := q) (hops op (by simp)) with ⟨bytes,hok,hkept,hnone⟩ | ⟨error,hno,hsame⟩
    · simp only [run,hok,accepted,delivered]
      constructor
      · obtain ⟨lost,hlost⟩ := hkept
        refine hsuffix.trans ⟨lost,?_⟩
        rw [← List.append_assoc,hlost,List.append_assoc]
      · intro herases
        rw [List.append_assoc,hall fun op' hop' => herases op' (by simp [hop']),← List.append_assoc,
          hnone (herases op (by simp)),List.append_assoc]
    · simp only [run,hno,accepted,delivered]
      rw [hsame] at hsuffix hall ⊢
      exact ⟨hsuffix,fun herases => hall fun op' hop' => herases op' (by simp [hop'])⟩

end Queue

/-- In every run in which bytes are only pushed, popped and read, the buffer holds the last of the bytes that
it has accepted; and when nothing is erased, the bytes that were handed out, followed by those in the buffer,
are all bytes that were accepted, in order. -/
theorem cbuf_fifo (base k : ℕ) (buf : ℕ → UInt8) (ops : List Op) (results : List Result) (cbuf : Cbuf) (hk : k < 32)
    (hbase : base + 2 ^ k < 2 ^ 32) (hops : ∀ op ∈ ops,op.Fits (2 ^ k)) (hserial : ∀ op ∈ ops,op.Serial)
    (hrun : (cbufInit buf (2 ^ k)).run base ops = some (results,cbuf)) :
    cbuf.bytes <:+ accepted ops results ∧
      ((∀ op ∈ ops,¬op.Erases) → delivered ops results ++ cbuf.bytes = accepted ops results) := by
  obtain ⟨hstuck,hgoes⟩ := (valid_cbufInit buf hk).1.run hbase hops
  rw [queue_cbufInit buf hk] at hstuck hgoes
  have hidles : ¬(Queue.empty (2 ^ k)).Idles ops := fun hidles => by
    rw [hstuck hidles] at hrun
    cases hrun
  obtain ⟨cbuf',hrun',hqueue⟩ := hgoes hidles
  rw [hrun'] at hrun
  cases hrun
  have hbytes : cbuf.bytes = ((Queue.empty (2 ^ k)).run ops).2.bytes := congrArg Queue.bytes hqueue
  rw [hbytes]
  exact Queue.run_serial hserial

/-- Three bytes are pushed and two of them are popped. -/
theorem cbuf_fifo_popped : ∃ cbuf,
    (cbufInit (fun _ => 0) (2 ^ 2)).run 4096 [.push [1,2,3] false,.pop 2] = some ([.ok [],.ok [1,2]],cbuf) ∧
      [1,2] ++ cbuf.bytes = [1,2,3] := by
  have hops : ∀ op ∈ [.push [1,2,3] false,.pop 2],Op.Fits (2 ^ 2) op := by simp [Op.Fits]
  obtain ⟨-,hgoes⟩ := (valid_cbufInit (fun _ => 0) (k := 2) (by decide)).1.run
    (show 4096 + 2 ^ 2 < 2 ^ 32 by decide) hops
  obtain ⟨cbuf,hrun,-⟩ := hgoes (by
    rw [queue_cbufInit _ (by decide)]
    simp [Queue.Idles,Queue.Idle])
  rw [queue_cbufInit _ (by decide)] at hrun
  have hfifo := cbuf_fifo 4096 2 (fun _ => 0) _ _ cbuf (by decide) (by decide) hops (by simp [Op.Serial]) hrun
  exact ⟨cbuf,hrun,hfifo.2 (by simp [Op.Erases])⟩

end X1.Lib
