import CLanguage.Audio.Pipes
import CLanguage.Lib.Involutions

/-!
# Encryptions in a pipe

An encryption lays a mask on the frames that depends on its key only. Masks commute, and
the same mask laid on twice is gone, so what a pipe of encryptions does to a sound depends
on the parity of the number of times each key is used.

## Main definitions

* `Sound`, `Sound.mask` — the frames of a sound, and a mask laid on them

## Main results

* `pipe_crypt` — a pipe of encryptions lays on its masks
* `pipe_parity` — the pipes that write the same audio
-/

namespace CLanguage.Audio

open Lib

variable {channels bytesPerSample : ℕ} {f : Filter} {fs gs : List Filter}
  {s s' out out' : AudioStream}

/-- The complete frames of a sound, as byte strings. -/
def Sound (channels bytesPerSample : ℕ) : Type :=
  { ls : List (List UInt8) // ∀ l ∈ ls, l.length = channels * bytesPerSample }

/-- What encrypting with a key makes of a sound. -/
def Sound.mask (sound : Sound channels bytesPerSample) (k : UInt32) :
    Sound channels bytesPerSample :=
  ⟨cryptBlocks channels bytesPerSample k.toUInt64 sound.1, length_of_mem_cryptBlocks sound.2⟩

theorem cryptBlocks_comm (next next' : UInt64) (ls : List (List UInt8)) :
    cryptBlocks channels bytesPerSample next (cryptBlocks channels bytesPerSample next' ls) =
      cryptBlocks channels bytesPerSample next' (cryptBlocks channels bytesPerSample next ls) := by
  induction ls generalizing next next' with
  | nil => rfl
  | cons l ls ih => rw [cryptBlocks, cryptBlocks, cryptBlocks, cryptBlocks, zipWith_xor_right_comm, ih]

theorem Sound.mask_comm (sound : Sound channels bytesPerSample) (k k' : UInt32) :
    (sound.mask k).mask k' = (sound.mask k').mask k :=
  Subtype.ext (cryptBlocks_comm _ _ _)

theorem Sound.mask_mask (sound : Sound channels bytesPerSample) (k : UInt32) :
    (sound.mask k).mask k = sound :=
  Subtype.ext (cryptBlocks_cryptBlocks sound.2 _)

/-- The masks that are left of a sequence of them. -/
theorem Sound.foldl_mask {ks ks' : List UInt32}
    (parity : ∀ k, ks.count k % 2 = ks'.count k % 2) (sound : Sound channels bytesPerSample) :
    ks.foldl mask sound = ks'.foldl mask sound :=
  foldl_eq_of_parity mask_comm mask_mask parity sound

/-! ### Streams -/

/-- The stream is that of a sound. -/
def Sound.IsIn (sound : Sound channels bytesPerSample) (s : AudioStream) : Prop :=
  s.header.channels.toNat = channels ∧ (s.header.encoding - 1).toNat = bytesPerSample ∧
    s.audio = sound.1.flatten

theorem AudioStream.format (s : AudioStream) :
    0 < s.header.frameSize ∧ (s.header.encoding - 1).toNat ≤ 4 := by
  -- the data offset does not matter for it
  have haccepted : { s.header with dataOffset := 24 : AudioHeader }.Accepted :=
    ⟨s.magicNumber, by decide_cbv, s.encoding, s.channels⟩
  exact ⟨haccepted.frameSize_pos, haccepted.format.2.2⟩

theorem AudioStream.exists_sound (s : AudioStream) (hframes : s.header.frameSize ∣ s.audio.length) :
    ∃ sound : Sound s.header.channels.toNat (s.header.encoding - 1).toNat, sound.IsIn s :=
  ⟨⟨chunks s.header.frameSize s.audio, fun _ hl => length_of_mem_chunks s.format.1 hl⟩, rfl, rfl,
    (flatten_chunks s.format.1 hframes).symm⟩

/-- A run of `-c` lays on the mask of its key. -/
theorem Sound.IsIn.crypt {sound : Sound channels bytesPerSample} (h : sound.IsIn s)
    (hcrypt : Flag.crypt.Selected f.options) (hfiltered : Filtered f s s') :
    (sound.mask (key f.options)).IsIn s' := by
  obtain ⟨rfl, rfl, haudio⟩ := h
  obtain ⟨hpos, hbytes⟩ := s.format
  obtain ⟨dataOffset, hrecode⟩ := hfiltered.audio
  have hchunks : chunks s.header.frameSize s.audio = sound.1 := by
    rw [haudio]
    exact chunks_flatten hpos sound.2
  have hno : ¬ hasOption f.options 62 := mt (hcrypt .speedup).mp (by decide)
  have hno' : ¬ hasOption f.options 61 := mt (hcrypt .slowdown).mp (by decide)
  have hset : hasOption f.options 60 := (hcrypt .crypt).mpr rfl
  rw [recodeAudio, if_neg hno, if_neg hno', if_pos hset, Option.some.injEq, Prod.mk.injEq]
    at hrecode
  obtain ⟨hheader, hloop⟩ := hrecode
  refine ⟨?_, ?_, ?_⟩
  · rw [← hheader]
  · rw [← hheader]
  · rw [← hloop, readFrames_eq hpos, hchunks]
    exact crypt_eq hbytes sound.2 _

/-- A pipe of encryptions lays on the masks of its keys, one after another. -/
theorem pipe_crypt {sound : Sound channels bytesPerSample} {bytes : List UInt8}
    (h : sound.IsIn s) (hne : s.annotation ≠ [])
    (hcrypt : ∀ f ∈ fs, Flag.crypt.Selected f.options) (hrun : pipe fs s.bytes = some bytes) :
    ∃ s', bytes = s'.bytes ∧
      ((fs.map fun f => key f.options).foldl Sound.mask sound).IsIn s' := by
  induction fs generalizing s sound with
  | nil => exact ⟨s, (Option.some.inj hrun).symm, h⟩
  | cons f fs ih =>
    obtain ⟨hfirst, hrest⟩ := List.forall_mem_cons.mp hcrypt
    rw [pipe_cons] at hrun
    obtain ⟨input, hstep, hrun⟩ := Option.bind_eq_some_iff.mp hrun
    obtain ⟨s₁, rfl, hfiltered⟩ := Filter.run_some hne hstep
    exact ih (h.crypt hfirst hfiltered) (hfiltered.length_annotation hne).1 hrest hrun

/-- The bytes of a stream tell its audio. -/
theorem AudioStream.audio_eq (h : s.bytes = s'.bytes) : s.audio = s'.audio := by
  obtain ⟨hheader, hrest⟩ := List.append_inj h (by rw [length_writeHeader, length_writeHeader])
  -- the data offset tells where the annotation ends
  have hoffset : ∀ s : AudioStream,
      (readWord ((writeHeader s.header).drop 4)).1.toUInt32 = s.header.dataOffset := by
    intro s
    rw [writeHeader, List.append_assoc, List.append_assoc, List.append_assoc, List.append_assoc,
      List.drop_left' (length_writeWord _), readWord_writeWord, UInt32.toUInt32_toInt32]
  have hwords := hoffset s
  rw [hheader, hoffset s'] at hwords
  refine (List.append_inj hrest ?_).2
  have hlength := s.dataOffset
  have hlength' := s'.dataOffset
  rw [← hwords] at hlength
  omega

/-- Two pipes of encryptions write the same audio for a stream of complete frames if every key is
used an even number of times in both, or an odd number of times in both. -/
theorem pipe_parity (hne : s.annotation ≠ []) (hframes : s.header.frameSize ∣ s.audio.length)
    (hfs : ∀ f ∈ fs, Flag.crypt.Selected f.options)
    (hgs : ∀ f ∈ gs, Flag.crypt.Selected f.options)
    (parity : ∀ k, (fs.map fun f => key f.options).count k % 2 =
      (gs.map fun f => key f.options).count k % 2)
    (hrun : pipe fs s.bytes = some out.bytes) (hrun' : pipe gs s.bytes = some out'.bytes) :
    out.audio = out'.audio := by
  obtain ⟨sound, hsound⟩ := s.exists_sound hframes
  obtain ⟨t, ht, -, -, haudio⟩ := pipe_crypt hsound hne hfs hrun
  obtain ⟨t', ht', -, -, haudio'⟩ := pipe_crypt hsound hne hgs hrun'
  rw [AudioStream.audio_eq ht, AudioStream.audio_eq ht', haudio, haudio', Sound.foldl_mask parity]

/-- The same key twice, against no run at all. -/
theorem pipe_parity_example :
    ∃ out : AudioStream, pipe [masked, masked] helloStream.bytes = some out.bytes ∧
      out.audio = helloStream.audio := by
  have hne : helloStream.annotation ≠ [] := List.cons_ne_nil _ _
  have hmode : Flag.crypt.Selected masked.options := by
    intro flag
    cases flag <;> decide_cbv
  have hmodes : ∀ f ∈ [masked, masked], Flag.crypt.Selected f.options :=
    List.forall_mem_cons.mpr ⟨hmode, List.forall_mem_cons.mpr ⟨hmode, fun _ h =>
      absurd h List.not_mem_nil⟩⟩
  have hcomplete : ∀ f ∈ [masked, masked], f.Complete :=
    List.forall_mem_cons.mpr ⟨.inl (by decide_cbv), List.forall_mem_cons.mpr ⟨.inl (by decide_cbv),
      fun _ h => absurd h List.not_mem_nil⟩⟩
  obtain ⟨out, hrun, -⟩ := pipe_runs hne (by decide) hcomplete (by decide_cbv)
  have hparity : ∀ k, ([masked, masked].map fun f => key f.options).count k % 2 =
      (([] : List Filter).map fun f => key f.options).count k % 2 := by
    intro k
    rw [List.map_cons, List.map_singleton, List.count_cons, List.count_singleton, List.map_nil,
      List.count_nil]
    split
    · rfl
    · rfl
  exact ⟨out, hrun, pipe_parity hne (by decide_cbv) hmodes (fun _ h => absurd h List.not_mem_nil)
    hparity hrun rfl⟩

end CLanguage.Audio
