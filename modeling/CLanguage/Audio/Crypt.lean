import CLanguage.Audio.Options

/-!
# Encrypting

`-c` masks each frame with the bytes of pseudorandom words that depend on the key
and on the position of the frame only (`cryptFrame_eq`), so encrypting twice with
one key gives back the audio (`crypt_crypt`).
-/

namespace CLanguage.Audio

open Lib

variable {c : UInt8} {input ap audio : List UInt8} {hp : AudioHeader}
  {channels bytesPerSample : ℕ}

/-- The bytes that mask a frame, with the state of the generator behind them. -/
def keystream : ℕ → ℕ → UInt64 → List UInt8 × UInt64
  | 0, _, next => ([], next)
  | channels + 1, bytesPerSample, next =>
    let rest := keystream channels bytesPerSample (myrand32 next).2
    (toBytes bytesPerSample (myrand32 next).1.toNat ++ rest.1, rest.2)

theorem keystream_succ (channels bytesPerSample : ℕ) (next : UInt64) :
    (keystream (channels + 1) bytesPerSample next).2 =
      (keystream channels bytesPerSample (myrand32 next).2).2 := by
  rw [keystream]

theorem length_keystream (channels bytesPerSample : ℕ) (next : UInt64) :
    (keystream channels bytesPerSample next).1.length = channels * bytesPerSample := by
  induction channels generalizing next with
  | zero => simp [keystream]
  | succ channels ih =>
    simp only [keystream, List.length_append, length_toBytes, ih, Nat.succ_mul, Nat.add_comm]

/-- The unsigned number that is collected from the bytes of a sample. -/
theorem foldl_frameOf (k : UInt32) (l : List UInt8) :
    (frameOf l).foldl (fun k a => k * 256 + a.toUInt32) k =
      UInt32.ofNat (ofBytesFrom k.toNat l) := by
  induction l generalizing k with
  | nil => simp [frameOf]
  | cons b l ih =>
    have hcons : frameOf (b :: l) = b.toUInt32.toInt32 :: frameOf l := rfl
    rw [hcons, List.foldl_cons, ih, ofBytesFrom_cons, ofBytesFrom_eq, ofBytesFrom_eq (_ + _),
      UInt32.toUInt32_toInt32]
    apply UInt32.toNat_inj.mp
    simp [Nat.add_mod, Nat.mul_mod]

/-- The loop that stores the encrypted sample stores its bytes. -/
theorem storeBytes_eq (hbytes : bytesPerSample ≤ 4) (k : UInt32) :
    ((List.range bytesPerSample).map fun j =>
      ((k <<< UInt32.ofNat (32 - 8 * bytesPerSample + 8 * j)) >>> 24).toInt32) =
      frameOf (toBytes bytesPerSample k.toNat) := by
  rw [toBytes_eq_map, frameOf, List.map_map]
  apply List.map_congr_left
  intro j hj
  have hj : j < bytesPerSample := List.mem_range.mp hj
  have hs : (UInt32.ofNat (32 - 8 * bytesPerSample + 8 * j)).toNat =
      8 * (3 - (bytesPerSample - 1 - j)) := by
    rw [UInt32.toNat_ofNat']
    omega
  have hbyte := toUInt8_shift (w := k) (show bytesPerSample - 1 - j < 4 by omega) hs
  have hlt := (k <<< UInt32.ofNat (32 - 8 * bytesPerSample + 8 * j)).toNat_lt
  rw [Function.comp_apply, ← hbyte]
  apply congrArg UInt32.toInt32
  apply UInt32.toNat_inj.mp
  rw [UInt8.toNat_toUInt32, UInt8.toNat_ofNat', UInt32.toNat_shiftRight, Nat.shiftRight_eq_div_pow,
    show (24 : UInt32).toNat % 32 = 24 from rfl]
  omega

/-- Encrypting a frame masks its bytes. -/
theorem cryptFrame_eq (hbytes : bytesPerSample ≤ 4) {l : List UInt8}
    (h : l.length = channels * bytesPerSample) (next : UInt64) :
    cryptFrame channels bytesPerSample (frameOf l) next =
      (frameOf (List.zipWith (· ^^^ ·) l (keystream channels bytesPerSample next).1),
        (keystream channels bytesPerSample next).2) := by
  induction channels generalizing l next with
  | zero =>
    rw [Nat.zero_mul] at h
    obtain rfl := List.length_eq_zero_iff.mp h
    rfl
  | succ channels ih =>
    rw [Nat.succ_mul] at h
    have htake : (l.take bytesPerSample).length = bytesPerSample :=
      List.length_take_of_le (by omega)
    have hdrop : (l.drop bytesPerSample).length = channels * bytesPerSample := by
      rw [List.length_drop]
      omega
    -- the sample is masked as a word, that is byte by byte
    have hsample : toBytes bytesPerSample
        (UInt32.ofNat (ofBytes (l.take bytesPerSample)) ^^^ (myrand32 next).1).toNat =
        List.zipWith (· ^^^ ·) (l.take bytesPerSample)
          (toBytes bytesPerSample (myrand32 next).1.toNat) := by
      have hlt : ofBytes (l.take bytesPerSample) < 2 ^ 32 := by
        have hvalue := ofBytes_lt (l.take bytesPerSample)
        rw [htake] at hvalue
        calc ofBytes (l.take bytesPerSample) < 256 ^ bytesPerSample := hvalue
          _ ≤ 256 ^ 4 := Nat.pow_le_pow_right (by decide) hbytes
          _ = 2 ^ 32 := by norm_num
      have hself := toBytes_ofBytes (l.take bytesPerSample)
      rw [htake] at hself
      rw [UInt32.toNat_xor, UInt32.toNat_ofNat_of_lt' hlt, toBytes_xor, hself]
    -- the keystream of the frame is cut in the same way
    have hsplit : List.zipWith (· ^^^ ·) l (keystream (channels + 1) bytesPerSample next).1 =
        List.zipWith (· ^^^ ·) (l.take bytesPerSample)
            (toBytes bytesPerSample (myrand32 next).1.toNat) ++
          List.zipWith (· ^^^ ·) (l.drop bytesPerSample)
            (keystream channels bytesPerSample (myrand32 next).2).1 := by
      conv_lhs => rw [← List.take_append_drop bytesPerSample l]
      rw [keystream, List.zipWith_append]
      rw [htake, length_toBytes]
    have htakeFrame : (frameOf l).take bytesPerSample = frameOf (l.take bytesPerSample) :=
      (List.map_take).symm
    have hdropFrame : (frameOf l).drop bytesPerSample = frameOf (l.drop bytesPerSample) :=
      (List.map_drop).symm
    have hzero : (0 : UInt32).toNat = 0 := rfl
    rw [cryptFrame]
    simp only [htakeFrame, hdropFrame, foldl_frameOf, hzero, ih hdrop, storeBytes_eq hbytes]
    rw [hsplit, ← hsample, frameOf_append, keystream_succ, ofBytes]

/-- The frames that `-c` writes, as byte strings. -/
def cryptBlocks (channels bytesPerSample : ℕ) : UInt64 → List (List UInt8) → List (List UInt8)
  | _, [] => []
  | next, l :: ls =>
    List.zipWith (· ^^^ ·) l (keystream channels bytesPerSample next).1 ::
      cryptBlocks channels bytesPerSample (keystream channels bytesPerSample next).2 ls

theorem length_of_mem_cryptBlocks {next : UInt64} {ls : List (List UInt8)}
    (hls : ∀ l ∈ ls, l.length = channels * bytesPerSample) :
    ∀ b ∈ cryptBlocks channels bytesPerSample next ls, b.length = channels * bytesPerSample := by
  induction ls generalizing next with
  | nil => exact fun b hb => absurd hb List.not_mem_nil
  | cons l ls ih =>
    intro b hb
    rw [cryptBlocks] at hb
    rcases List.mem_cons.mp hb with rfl | hb
    · rw [List.length_zipWith, hls l List.mem_cons_self, length_keystream, Nat.min_self]
    · exact ih (fun m hm => hls m (List.mem_cons_of_mem l hm)) b hb

/-- The loop of `-c` writes these frames one after another. -/
theorem crypt_eq (hbytes : bytesPerSample ≤ 4) {ls : List (List UInt8)}
    (hls : ∀ l ∈ ls, l.length = channels * bytesPerSample) (next : UInt64) :
    crypt channels bytesPerSample next (ls.map frameOf) =
      (cryptBlocks channels bytesPerSample next ls).flatten := by
  induction ls generalizing next with
  | nil => rfl
  | cons l ls ih =>
    have hl := hls l List.mem_cons_self
    have hrest := ih fun m hm => hls m (List.mem_cons_of_mem l hm)
    have hlength : (List.zipWith (· ^^^ ·) l (keystream channels bytesPerSample next).1).length ≤
        channels * bytesPerSample := by
      rw [List.length_zipWith, hl]
      exact Nat.min_le_left _ _
    rw [List.map_cons, crypt, cryptFrame_eq hbytes hl]
    simp only [writeFrame_frameOf hlength, hrest, cryptBlocks, List.flatten_cons]

/-- The same key gives the same masks again. -/
theorem cryptBlocks_cryptBlocks {ls : List (List UInt8)}
    (hls : ∀ l ∈ ls, l.length = channels * bytesPerSample) (next : UInt64) :
    cryptBlocks channels bytesPerSample next (cryptBlocks channels bytesPerSample next ls) = ls := by
  induction ls generalizing next with
  | nil => rfl
  | cons l ls ih =>
    have hlength : l.length = (keystream channels bytesPerSample next).1.length := by
      rw [hls l List.mem_cons_self, length_keystream]
    rw [cryptBlocks, cryptBlocks, zipWith_xor_cancel hlength,
      ih fun m hm => hls m (List.mem_cons_of_mem l hm)]

/-- A run with `-c` and `-p`. -/
theorem recode_crypt (h : Accepts c input hp ap audio) (k : UInt32)
    (argv : List (List UInt8)) :
    recode (Mode.crypt k).options argv c input =
      .ok (1, some ⟨hp, annotationKept ap, (cryptBlocks hp.channels.toNat (hp.encoding - 1).toNat
        k.toUInt64 (chunks hp.frameSize audio)).flatten⟩) := by
  have haccepted := (accepts_iff.mp h).1
  have hsize := haccepted.frameSize_pos
  have hblocks : ∀ l ∈ chunks hp.frameSize audio,
      l.length = hp.channels.toNat * (hp.encoding - 1).toNat :=
    fun l hl => length_of_mem_chunks hsize hl
  have haudio := recodeAudio_crypt k hp (readFrames hp.frameSize audio)
  rw [readFrames_eq hsize, crypt_eq haccepted.format.2.2 hblocks] at haudio
  rw [← readFrames_eq hsize] at haudio
  exact recode_preserve argv h (options_crypt k).2.2.2.1 haudio

/-- Running with `-c -k KEY -p` twice gives back the header and the audio. -/
theorem crypt_crypt {c' : UInt8} {argv argv' : List (List UInt8)}
    (h : Accepts c input hp ap audio) (hne : ap ≠ []) (hframes : hp.frameSize ∣ audio.length)
    (k : UInt32) :
    ∃ masked restored,
      recode (Mode.crypt k).options argv c input = .ok (1, some masked) ∧
      recode (Mode.crypt k).options argv' c' masked.bytes = .ok (1, some restored) ∧
      restored.header = hp ∧ restored.audio = audio := by
  have hsize := (accepts_iff.mp h).1.frameSize_pos
  have hblocks : ∀ l ∈ chunks hp.frameSize audio,
      l.length = hp.channels.toNat * (hp.encoding - 1).toNat :=
    fun l hl => length_of_mem_chunks hsize hl
  have hfirst := recode_crypt h k argv
  have haccepts := h.output hne c' hp.dataSize (cryptBlocks hp.channels.toNat
    (hp.encoding - 1).toNat k.toUInt64 (chunks hp.frameSize audio)).flatten
  have hsecond := recode_crypt haccepts k argv'
  refine ⟨_, _, hfirst, hsecond, rfl, ?_⟩
  have hagain : chunks hp.frameSize (cryptBlocks hp.channels.toNat (hp.encoding - 1).toNat
      k.toUInt64 (chunks hp.frameSize audio)).flatten = cryptBlocks hp.channels.toNat
      (hp.encoding - 1).toNat k.toUInt64 (chunks hp.frameSize audio) :=
    chunks_flatten hsize (length_of_mem_cryptBlocks hblocks)
  show (cryptBlocks _ _ _ (chunks hp.frameSize _)).flatten = audio
  rw [hagain, cryptBlocks_cryptBlocks hblocks, flatten_chunks hsize hframes]

/-- Three frames, with the key deadbeef. -/
theorem crypt_crypt_example : ∃ masked restored,
    recode (Mode.crypt 0xdeadbeef).options [] 0 shortStream = .ok (1, some masked) ∧
    recode (Mode.crypt 0xdeadbeef).options [] 0 masked.bytes = .ok (1, some restored) ∧
    restored.header = shortHeader ∧ restored.audio = [10, 200, 30] :=
  crypt_crypt (accepts_shortStream 0) (by decide) (by decide_cbv) 0xdeadbeef

end CLanguage.Audio
