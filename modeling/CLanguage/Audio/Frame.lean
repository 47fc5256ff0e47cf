import CLanguage.Audio.Header
import CLanguage.Lib.Chunks

/-!
# Audio frames

A frame buffer holds one `int` for each byte of a frame. The frames that
successive calls of `read_frame` deliver are the complete blocks of the audio
bytes (`readFrames_eq`), and `write_frame` writes back the bytes that were read
(`writeFrame_frameOf`).
-/

namespace CLanguage.Audio

open Lib

abbrev Frame := List Int32

/-- `read_frame` of a frame of `size` bytes: the frame and the rest of the input, `none` for the
return value 0. -/
def readFrame : ℕ → List UInt8 → Option (Frame × List UInt8)
  | 0, input => some ([], input)
  | size + 1, input =>
    let (a, input) := getchar input
    if a = -1 then none
    else
      match readFrame size input with
      | none => none
      | some (fp, input) => some (a :: fp, input)

/-- The frames that calls of `read_frame` deliver before one returns 0, at most `fuel`. -/
def readFramesFrom (size : ℕ) : ℕ → List UInt8 → List Frame
  | 0, _ => []
  | fuel + 1, input =>
    match readFrame size input with
    | none => []
    | some (fp, input) => fp :: readFramesFrom size fuel input

/-- The frames that calls of `read_frame` deliver before one returns 0. -/
def readFrames (size : ℕ) (input : List UInt8) : List Frame :=
  readFramesFrom size input.length input

/-- `write_frame` of a frame of `size` bytes. -/
def writeFrame (size : ℕ) (fp : Frame) : List UInt8 := (fp.take size).map putchar

/-- The value that a loop collects from the bytes of a sample. -/
def sample (fp : Frame) : Int32 := fp.foldl (fun c a => c * 256 + a) 0

/-- The loop that stores the bytes of a sample. -/
def storeSample (bytesPerSample : ℕ) (e : Int32) : Frame :=
  (List.range bytesPerSample).map fun g =>
    (e <<< Int32.ofNat (32 - 8 * bytesPerSample + 8 * g)) >>> 24

/-- `calcu_frame` -/
def calcuFrame : ℕ → ℕ → Frame → Frame → Int32 → Int32 → Frame
  | 0, _, _, _, _, _ => []
  | channels + 1, bytesPerSample, pp, ip, fac, k =>
    let c := sample (pp.take bytesPerSample)
    let d := sample (ip.take bytesPerSample)
    let e := c + (d - c) * k / fac
    storeSample bytesPerSample e ++
      calcuFrame channels bytesPerSample (pp.drop bytesPerSample) (ip.drop bytesPerSample) fac k

/-! ## Random numbers -/

/-- `myrand`, with the state that it leaves in `next`. -/
def myrand (next : UInt64) : Int32 × UInt64 :=
  let next := next * 1103515245 + 12345
  (((next / 65536).toUInt32 % 32768).toInt32, next)

/-- The loop of `myrand32`. -/
def myrand32From : ℕ → UInt32 → UInt64 → UInt32 × UInt64
  | 0, r, next => (r, next)
  | n + 1, r, next =>
    let (m, next) := myrand next
    myrand32From n ((r <<< 8) ||| ((m &&& 0x7fff) >>> 7).toUInt32) next

/-- `myrand32`, with the state that it leaves in `next`. -/
def myrand32 (next : UInt64) : UInt32 × UInt64 := myrand32From 4 0 next

/-- The loop over the channels of a frame that is encrypted, with the state of the generator. -/
def cryptFrame : ℕ → ℕ → Frame → UInt64 → Frame × UInt64
  | 0, _, _, next => ([], next)
  | channels + 1, bytesPerSample, inputFrame, next =>
    let (prng, next) := myrand32 next
    let k := (inputFrame.take bytesPerSample).foldl (fun k a => k * 256 + a.toUInt32) 0
    let k := k ^^^ prng
    let output := (List.range bytesPerSample).map fun j =>
      ((k <<< UInt32.ofNat (32 - 8 * bytesPerSample + 8 * j)) >>> 24).toInt32
    let (outputFrame, next) := cryptFrame channels bytesPerSample (inputFrame.drop bytesPerSample) next
    (output ++ outputFrame, next)

/-! ## Frames and bytes -/

/-- The frame buffer after the given bytes are read. -/
def frameOf (l : List UInt8) : Frame := l.map fun b => b.toUInt32.toInt32

@[simp] theorem length_frameOf (l : List UInt8) : (frameOf l).length = l.length :=
  List.length_map _

theorem frameOf_append (l m : List UInt8) : frameOf (l ++ m) = frameOf l ++ frameOf m :=
  List.map_append

/-- A character that is read is not mistaken for the end of the input. -/
theorem getchar_ne_end (b : UInt8) : b.toUInt32.toInt32 ≠ -1 := by
  intro h
  have hword : b.toUInt32.toNat = 4294967295 := by
    have hmax : (-1 : Int32).toUInt32.toNat = 4294967295 := by decide_cbv
    rw [← hmax, ← h, UInt32.toUInt32_toInt32]
  have hlt := b.toNat_lt
  rw [UInt8.toNat_toUInt32] at hword
  omega

theorem readFrame_append {size : ℕ} {l : List UInt8} (h : l.length = size) (input : List UInt8) :
    readFrame size (l ++ input) = some (frameOf l, input) := by
  induction size generalizing l with
  | zero =>
    obtain rfl := List.length_eq_zero_iff.mp h
    rfl
  | succ size ih =>
    cases l with
    | nil => simp at h
    | cons b l =>
      have htail : l.length = size := Nat.succ.inj h
      rw [List.cons_append, readFrame]
      simp only [getchar, if_neg (getchar_ne_end b), ih htail]
      rfl

theorem readFrame_cut {size : ℕ} {input : List UInt8} (h : input.length < size) :
    readFrame size input = none := by
  induction size generalizing input with
  | zero => exact absurd h (Nat.not_lt_zero _)
  | succ size ih =>
    cases input with
    | nil =>
      rw [readFrame]
      simp only [getchar, if_true]
    | cons b input =>
      have htail : input.length < size := Nat.lt_of_succ_lt_succ h
      rw [readFrame]
      simp only [getchar, if_neg (getchar_ne_end b), ih htail]

/-- As long as there is fuel for each complete frame, the fuel does not matter. -/
theorem readFramesFrom_eq {size : ℕ} (hsize : 0 < size) {fuel : ℕ} {input : List UInt8}
    (h : input.length ≤ fuel) :
    readFramesFrom size fuel input = (chunks size input).map frameOf := by
  induction fuel generalizing input with
  | zero =>
    obtain rfl := List.length_eq_zero_iff.mp (Nat.le_zero.mp h)
    rw [chunks_of_length_lt hsize]
    rfl
  | succ fuel ih =>
    by_cases hle : size ≤ input.length
    · have hread := readFrame_append (List.length_take_of_le hle) (input.drop size)
      rw [List.take_append_drop] at hread
      have hrest : (input.drop size).length ≤ fuel := by
        rw [List.length_drop]
        omega
      rw [readFramesFrom, hread, chunks_of_length_le hsize hle, List.map_cons]
      simp only [ih hrest]
    · have hlt := Nat.lt_of_not_le hle
      rw [readFramesFrom, readFrame_cut hlt, chunks_of_length_lt hlt]
      rfl

/-- The frames that are read are the complete blocks of the audio bytes. -/
theorem readFrames_eq {size : ℕ} (hsize : 0 < size) (input : List UInt8) :
    readFrames size input = (chunks size input).map frameOf :=
  readFramesFrom_eq hsize (Nat.le_refl _)

/-- A frame that was read is written with the same bytes. -/
theorem writeFrame_frameOf {size : ℕ} {l : List UInt8} (h : l.length ≤ size) :
    writeFrame size (frameOf l) = l := by
  rw [writeFrame, List.take_of_length_le (by rw [length_frameOf]; exact h), frameOf, List.map_map]
  apply List.map_id''
  exact putchar_getchar

theorem length_writeFrame {size : ℕ} {fp : Frame} (h : fp.length = size) :
    (writeFrame size fp).length = size := by
  rw [writeFrame, List.length_map, List.length_take, h, Nat.min_self]

@[simp] theorem length_storeSample (bytesPerSample : ℕ) (e : Int32) :
    (storeSample bytesPerSample e).length = bytesPerSample := by
  rw [storeSample, List.length_map, List.length_range]

/-- An interpolated frame has as many bytes as the frames it is computed from. -/
theorem length_calcuFrame (channels bytesPerSample : ℕ) (pp ip : Frame) (fac k : Int32) :
    (calcuFrame channels bytesPerSample pp ip fac k).length = channels * bytesPerSample := by
  induction channels generalizing pp ip with
  | zero => simp [calcuFrame]
  | succ channels ih =>
    simp only [calcuFrame, List.length_append, length_storeSample, ih, Nat.succ_mul, Nat.add_comm]

end CLanguage.Audio
