import Denoise.CommandLine
import Denoise.Proofs.Accounting
import Mathlib.Data.Nat.ModEq

/-!
# Recordings of several channels

The samples of the channels of a recording are taken apart, played through an engine each, and put
side by side again.  Whatever the number of samples, sample `i` of a channel is found at
`i * channels + index` before and after.

The channels may differ in length by one sample.  The output is cut to that of the shortest, which
is the last (`length_channel_last`).  Since what an engine yields grows with what it is fed
(`Geometry.yield_mono`), the length of the output is that yield.
-/

namespace Denoise

/-- A longer stretch yields no less. -/
theorem Geometry.yield_mono (g : Geometry) {fed more : Nat} (h : fed ≤ more) :
    g.yield fed ≤ g.yield more := by
  rw [yield, yield]
  split
  next => exact Nat.zero_le _
  next hlong =>
    rw [if_neg (by omega)]
    exact Nat.mul_le_mul_right _ (Nat.sub_le_sub_right (Nat.div_le_div_right h) 1)

/-- A stretch yields something when it meets the demand. -/
theorem Geometry.yield_eq_zero_iff (g : Geometry) (fed : Nat) :
    g.yield fed = 0 ↔ fed < g.demand := by
  rw [yield]
  split
  next hshort => exact iff_of_true rfl hshort
  next hlong =>
    have hframe : 2 * g.hop ≤ fed := Nat.le_trans (Nat.le_of_lt g.frameLen_lt_demand) (by omega)
    have hhops := (Nat.le_div_iff_mul_le g.hop_pos).2 hframe
    refine iff_of_false (Nat.mul_ne_zero (by omega) (Nat.ne_of_gt g.hop_pos)) hlong

section Blocks

variable {S : Type} [SampleKind S]

/-- What an engine puts out for some blocks. -/
def Engine.outputOver : Engine → List (List S) → List S
  | _, [] => []
  | e, block :: blocks =>
    let fed := e.process block
    fed.output ++ fed.engine.outputOver blocks

/-- However a stretch is cut into blocks, its length says how much is put out. -/
theorem Session.length_outputOver {calls : List (Call S)} {e : Engine} (run : Session calls e)
    (blocks : List (List S)) :
    (outputOf calls).length + (e.outputOver blocks).length
      = e.plan.geometry.yield ((fedSamples calls).length + blocks.flatten.length) := by
  induction blocks generalizing calls e with
  | nil => exact run.length_outputOf
  | cons block blocks ih =>
    have hlength := ih (run.fed e.activity block)
    rw [outputOf_concat, fedSamples_concat, List.length_append, List.length_append,
      Call.length_samples, Call.fed_plan] at hlength
    rw [Engine.outputOver, List.length_append, List.flatten_cons, List.length_append,
      ← Nat.add_assoc, ← Nat.add_assoc]
    exact hlength

end Blocks

namespace Offline

variable {α : Type}

/-! ## Channels -/

/-- `distance` places from here is the first sample of the channel, from where on it has one in
every `channels` samples. -/
theorem getElem?_filter_zipIdx {channels index first distance : Nat} (hlt : distance < channels)
    (hmod : (first + distance) % channels = index) (samples : List α) (i : Nat) :
    (((samples.zipIdx first).filter fun (_, k) => k % channels == index).map Prod.fst)[i]?
      = samples[i * channels + distance]? := by
  induction samples generalizing first distance i with
  | nil => rfl
  | cons sample samples ih =>
    rw [List.zipIdx_cons]
    cases distance with
    | zero =>
      -- this sample is taken, and the next one is `channels` places on
      have hhere : first % channels = index := hmod
      have hnext : (first + 1 + (channels - 1)) % channels = index := by
        rw [← hhere, show first + 1 + (channels - 1) = first + channels by omega,
          Nat.add_mod_right]
      rw [List.filter_cons_of_pos (by simpa using hhere), List.map_cons]
      cases i with
      | zero =>
        rw [Nat.zero_mul]
        rfl
      | succ i =>
        rw [List.getElem?_cons_succ, ih (by omega) hnext, Nat.succ_mul,
          show i * channels + channels + 0 = i * channels + (channels - 1) + 1 by omega,
          List.getElem?_cons_succ]
    | succ distance =>
      -- two places of the channel are not so near
      have hother : first % channels ≠ index := by
        rintro rfl
        have hdvd := (Nat.modEq_iff_dvd' (Nat.le_add_right first (distance + 1))).1 hmod.symm
        rw [Nat.add_sub_cancel_left] at hdvd
        exact Nat.not_dvd_of_pos_of_lt (Nat.succ_pos _) hlt hdvd
      rw [List.filter_cons_of_neg (by simpa using hother),
        ih (Nat.lt_of_succ_lt hlt) (by rwa [Nat.add_assoc, Nat.add_comm 1]), ← Nat.add_assoc,
        List.getElem?_cons_succ]

section Channel

variable {channels index : Nat} (h : index < channels)

include h

/-- Where the samples of a channel are. -/
theorem getElem?_channel (samples : List α) (i : Nat) :
    (channel channels index samples)[i]? = samples[i * channels + index]? :=
  getElem?_filter_zipIdx h (by rw [Nat.zero_add, Nat.mod_eq_of_lt h]) samples i

theorem length_channel_le_iff (samples : List α) (i : Nat) :
    (channel channels index samples).length ≤ i ↔ samples.length ≤ i * channels + index := by
  rw [← List.getElem?_eq_none_iff, getElem?_channel h, List.getElem?_eq_none_iff]

/-- A channel is made of the samples at its places. -/
theorem channel_congr {samples others : List α} (hsame : ∀ i,
    others[i * channels + index]? = samples[i * channels + index]?) :
    channel channels index others = channel channels index samples :=
  List.ext_getElem? fun i => by rw [getElem?_channel h, getElem?_channel h, hsame]

/-- Every channel has the whole frames. -/
theorem div_le_length_channel (samples : List α) :
    samples.length / channels ≤ (channel channels index samples).length := by
  by_contra hshort
  have hle := (length_channel_le_iff h samples _).1 (Nat.le_refl _)
  have hframes := Nat.mul_le_of_le_div channels _ _ (Nat.succ_le_of_lt (Nat.lt_of_not_le hshort))
  rw [Nat.succ_mul] at hframes
  omega

end Channel

/-- The last channel has no more. -/
theorem length_channel_last {channels : Nat} (h : 0 < channels) (samples : List α) :
    (channel channels (channels - 1) samples).length = samples.length / channels := by
  refine Nat.le_antisymm ?_ (div_le_length_channel (by omega) samples)
  have hsplit := Nat.div_add_mod' samples.length channels
  have hmod := Nat.mod_lt samples.length h
  exact (length_channel_le_iff (by omega) samples _).2 (by omega)

/-! ## Blocks -/

section Blocks

variable {size turns : Nat} (hsize : 0 < size) {samples : List α}

include hsize

theorem flatten_blocksFor (hturns : samples.length ≤ turns) :
    (blocksFor size turns samples).flatten = samples := by
  induction turns generalizing samples with
  | zero => rw [List.length_eq_zero_iff.1 (Nat.le_zero.1 hturns), blocksFor, List.flatten_nil]
  | succ turns ih =>
    cases samples with
    | nil => rfl
    | cons sample samples =>
      rw [List.length_cons] at hturns
      rw [blocksFor, List.flatten_cons, ih, List.take_append_drop]
      · rw [List.length_drop, List.length_cons]
        omega
      · exact List.cons_ne_nil _ _

theorem getElem?_blocksFor (hturns : samples.length ≤ turns) (k : Nat) :
    (blocksFor size turns samples)[k]?
      = if k * size < samples.length then some ((samples.drop (k * size)).take size) else none := by
  induction turns generalizing samples k with
  | zero =>
    rw [blocksFor, if_neg (by omega)]
    rfl
  | succ turns ih =>
    cases samples with
    | nil => exact (if_neg (Nat.not_lt_zero _)).symm
    | cons sample samples =>
      have hcut : blocksFor size (turns + 1) (sample :: samples)
          = (sample :: samples).take size
            :: blocksFor size turns ((sample :: samples).drop size) := rfl
      rw [hcut]
      generalize hall : sample :: samples = all at *
      have hpos : 0 < all.length := hall ▸ Nat.succ_pos _
      cases k with
      | zero => rw [Nat.zero_mul, if_pos hpos, List.getElem?_cons_zero, List.drop_zero]
      | succ k =>
        rw [List.getElem?_cons_succ, ih (by rw [List.length_drop]; omega), List.length_drop,
          List.drop_drop, Nat.succ_mul, Nat.add_comm size]
        exact if_congr (by omega) rfl rfl

end Blocks

theorem flatten_blocks {size : Nat} (hsize : 0 < size) (samples : List α) :
    (blocks size samples).flatten = samples :=
  flatten_blocksFor hsize (Nat.le_refl _)

/-- Every block is full, but for the last. -/
theorem getElem?_blocks {size : Nat} (hsize : 0 < size) (samples : List α) (k : Nat) :
    (blocks size samples)[k]?
      = if k * size < samples.length then some ((samples.drop (k * size)).take size) else none :=
  getElem?_blocksFor hsize (Nat.le_refl _) k

/-! ## Frames -/

theorem commonLength_eq {lists : List (List Float32)} {shortest : List Float32}
    (hmem : shortest ∈ lists) (hle : ∀ l ∈ lists, shortest.length ≤ l.length) :
    commonLength lists = shortest.length := by
  have hmin : (lists.map List.length).min? = some shortest.length := by
    refine List.min?_eq_some_iff.2 ⟨List.mem_map_of_mem hmem, fun n hn => ?_⟩
    obtain ⟨l, hl, rfl⟩ := List.mem_map.1 hn
    exact hle l hl
  rw [commonLength]
  cases hlengths : lists.map List.length with
  | nil => rw [hlengths] at hmin; cases hmin
  | cons n ns => rw [hlengths] at hmin; exact Option.some.inj hmin

section Rows

variable {width : Nat} {row : Nat → List α} (hwidth : ∀ i, (row i).length = width)

include hwidth

theorem length_rows (count : Nat) : ((List.range count).flatMap row).length = count * width := by
  rw [List.length_flatMap, List.map_congr_left fun i _ => hwidth i, List.map_const',
    List.sum_replicate_nat, List.length_range]

theorem getElem?_rows {place : Nat} (hplace : place < width) {i count : Nat} (hi : i < count) :
    ((List.range count).flatMap row)[i * width + place]? = (row i)[place]? := by
  induction count with
  | zero => exact absurd hi (Nat.not_lt_zero i)
  | succ count ih =>
    rw [List.range_succ, List.flatMap_append, List.flatMap_singleton]
    rcases Nat.lt_succ_iff_lt_or_eq.1 hi with hearlier | rfl
    · have hfits := Nat.mul_le_mul_right width (Nat.succ_le_of_lt hearlier)
      rw [Nat.succ_mul] at hfits
      rw [List.getElem?_append_left (by rw [length_rows hwidth]; omega), ih hearlier]
    · rw [List.getElem?_append_right (by rw [length_rows hwidth]; omega), length_rows hwidth,
        Nat.add_sub_cancel_left]

end Rows

/-- Sample `i` of a channel is at its place in frame `i`. -/
theorem getElem?_interleave {frames i place : Nat} {channels : List (List Float32)}
    {l : List Float32} (hi : i < frames) (hmem : channels[place]? = some l)
    (hlong : frames ≤ l.length) :
    (interleave frames channels)[i * channels.length + place]? = l[i]? := by
  obtain ⟨hplace, -⟩ := List.getElem?_eq_some_iff.1 hmem
  rw [interleave, getElem?_rows (fun _ => by rw [List.length_map, List.length_map]) hplace hi,
    List.getElem?_map, List.getElem?_map, hmem]
  simp [Array.getD_eq_getD_getElem?, List.getElem?_eq_getElem (Nat.lt_of_lt_of_le hi hlong)]

theorem length_interleave (frames : Nat) (channels : List (List Float32)) :
    (interleave frames channels).length = frames * channels.length :=
  length_rows (fun _ => by rw [List.length_map, List.length_map]) frames

/-! ## Engines -/

theorem output_foldl (played : Played) (blocks : List (List Float32)) :
    (blocks.foldl Played.step played).output
      = played.output ++ played.engine.outputOver blocks := by
  induction blocks generalizing played with
  | nil => rw [List.foldl_nil, Engine.outputOver, List.append_nil]
  | cons block blocks ih =>
    rw [List.foldl_cons, ih, Engine.outputOver, ← List.append_assoc]
    congr 1
    rw [Played.output, Played.step, List.reverse_cons, List.flatten_append, List.flatten_singleton,
      Played.output]

theorem output_play (e : Engine) (samples : List Float32) :
    (play e samples).output = e.outputOver (blocks blockSize samples) := by
  rw [play, output_foldl]
  rfl

/-- What an engine puts out for each channel of a recording. -/
def outputs (e : Engine) (channels : Nat) (samples : List Float32) : List (List Float32) :=
  (List.range channels).map fun index =>
    e.outputOver (blocks blockSize (channel channels index samples))

theorem length_outputs (e : Engine) (channels : Nat) (samples : List Float32) :
    (outputs e channels samples).length = channels := by
  rw [outputs, List.length_map, List.length_range]

section Engine

variable {e : Engine} (fresh : Session ([] : List (Call Float32)) e)

include fresh

theorem length_outputOver (samples : List Float32) :
    (e.outputOver (blocks blockSize samples)).length = e.plan.geometry.yield samples.length := by
  have hlength := fresh.length_outputOver (blocks blockSize samples)
  rw [flatten_blocks (by decide), outputOf, fedSamples, List.flatMap_nil, List.flatMap_nil,
    List.length_nil, List.length_nil, Nat.zero_add, Nat.zero_add] at hlength
  exact hlength

/-- Every channel has as many samples as the whole frames yield. -/
theorem yield_le_of_mem {channels : Nat} {samples l : List Float32}
    (hl : l ∈ outputs e channels samples) :
    e.plan.geometry.yield (samples.length / channels) ≤ l.length := by
  obtain ⟨index, hindex, rfl⟩ := List.mem_map.1 hl
  rw [length_outputOver fresh]
  exact Geometry.yield_mono _ (div_le_length_channel (List.mem_range.1 hindex) samples)

/-- The last has no more. -/
theorem commonLength_outputs {channels : Nat} (h : 0 < channels) (samples : List Float32) :
    commonLength (outputs e channels samples)
      = e.plan.geometry.yield (samples.length / channels) := by
  have hlast := length_outputOver fresh (channel channels (channels - 1) samples)
  rw [length_channel_last h] at hlast
  rw [← hlast]
  refine commonLength_eq (List.mem_map.2 ⟨channels - 1, List.mem_range.2 (by omega), rfl⟩) ?_
  rw [hlast]
  exact fun l hl => yield_le_of_mem fresh hl

/-- The outputs side by side, as long as the shortest. -/
theorem getElem?_interleave_outputs {channels place : Nat} (hplace : place < channels)
    {samples : List Float32} {i : Nat}
    (hi : i < e.plan.geometry.yield (samples.length / channels)) :
    (interleave (e.plan.geometry.yield (samples.length / channels))
        (outputs e channels samples))[i * channels + place]?
      = (e.outputOver (blocks blockSize (channel channels place samples)))[i]? := by
  have hmem : (outputs e channels samples)[place]?
      = some (e.outputOver (blocks blockSize (channel channels place samples))) := by
    rw [outputs, List.getElem?_map, List.getElem?_range hplace, Option.map_some]
  have hentry := getElem?_interleave hi hmem
    (yield_le_of_mem fresh (List.mem_of_getElem? hmem))
  rwa [length_outputs] at hentry

/-- What is heard of a channel does not depend on the others. -/
theorem getElem?_interleave_congr {channels place : Nat} (hplace : place < channels)
    {samples others : List Float32} (hlength : others.length = samples.length)
    (hsame : ∀ i, others[i * channels + place]? = samples[i * channels + place]?) (i : Nat) :
    let frames := e.plan.geometry.yield (samples.length / channels)
    (interleave frames (outputs e channels others))[i * channels + place]?
      = (interleave frames (outputs e channels samples))[i * channels + place]? := by
  intro frames
  rcases Nat.lt_or_ge i frames with hi | hi
  · have hothers : i < e.plan.geometry.yield (others.length / channels) := hlength ▸ hi
    have hentry := getElem?_interleave_outputs fresh hplace hothers
    rw [hlength, channel_congr hplace hsame] at hentry
    exact hentry.trans (getElem?_interleave_outputs fresh hplace hi).symm
  · have hend : frames * channels ≤ i * channels + place :=
      Nat.le_trans (Nat.mul_le_mul_right channels hi) (Nat.le_add_right _ _)
    rw [List.getElem?_eq_none, List.getElem?_eq_none]
    · rwa [length_interleave, length_outputs]
    · rwa [length_interleave, length_outputs]

end Engine

/-- The output by the length of the channels, if there is an engine. -/
theorem denoise_eq {numerics : Numerics} {s : Settings} {rate : Float32} {channels : Nat}
    {made : Reconfigured} (hcreate : Engine.create numerics rate s (fun _ => 0) = .ok made)
    (h : 0 < channels) (held : Bool) (samples : List Float32) :
    let g := made.engine.plan.geometry
    let length := samples.length / channels
    let outputs := outputs (made.engine.setHold held).engine channels samples
    ∃ events, denoise numerics s held rate channels samples
      = if length < g.demand then .error (.tooShort g.demand)
        else .ok ⟨interleave (g.yield length) outputs, events⟩ := by
  intro g length outputs
  have hplayed : ((List.range channels).map fun i =>
        play (made.engine.setHold held).engine (channel channels i samples)).map Played.output
      = outputs := by
    rw [List.map_map]
    exact List.map_congr_left fun i _ => output_play _ _
  have hcommon : commonLength outputs = g.yield length :=
    commonLength_outputs (.holdSet held (.created hcreate)) h samples
  simp only [denoise, hcreate, hplayed, hcommon, Geometry.yield_eq_zero_iff]
  exact ⟨_, rfl⟩

end Offline

namespace CommandLine.Arguments

open Offline (blockSize blocks channel interleave outputs)

variable {numerics : Numerics} {a : Arguments} {s : Settings} {r : Wave.Recording} {g : Geometry}

/-- What the tool makes of a recording, by the length of its channels. -/
theorem denoiseWith_eq {made : Reconfigured}
    (hcreate : Engine.create numerics (ofCount r.format.rate) s (fun _ => 0) = .ok made)
    (h : 0 < r.format.channels) :
    let g := made.engine.plan.geometry
    let length := r.samples.length / r.format.channels
    let outputs := outputs (made.engine.setHold a.held).engine r.format.channels r.samples
    a.denoiseWith numerics s r = if length < g.demand then .error (.tooShort g.demand)
      else .ok ⟨Wave.writtenFormat r.format.channels r.format.rate,
        interleave (g.yield length) outputs⟩ := by
  intro g length outputs
  obtain ⟨events, heq⟩ := Offline.denoise_eq hcreate h a.held r.samples
  rw [denoiseWith, heq]
  by_cases hshort : length < g.demand
  · rw [if_pos hshort, if_pos hshort]
  · rw [if_neg hshort, if_neg hshort]

/-- There is an engine for valid settings and a rate that has sizes. -/
theorem exists_made (numerics : Numerics) (valid : s.Valid) {rate : Float32}
    (sizes : Geometry.ofRate? rate s = some g) :
    ∃ made, Engine.create numerics rate s (fun _ => 0) = .ok made
      ∧ made.engine.plan.geometry = g := by
  let p : Plan := { numerics := numerics, settings := s, geometry := g }
  have hnone : s.violation? = none := valid
  have hplan : Plan.ofRate? numerics s rate = some p := by
    rw [Plan.ofRate?, sizes]
    rfl
  refine ⟨⟨.idle p (fun _ => 0) 0, [.started rate g.frameLen g.hop g.demand]⟩, ?_, rfl⟩
  simp only [Engine.create, hnone, hplan]
  rfl

/-- With settings and a recording that can be read, the tool writes what it makes of them. -/
theorem resultWith_eq {settings input : Option (List UInt8)} (loaded : a.load settings = .ok s)
    (recorded : a.record input = .ok r) :
    a.resultWith numerics settings input = a.denoiseWith numerics s r := by
  rw [resultWith, loaded, recorded]
  rfl

/-- A recording of any length, in any number of channels, with valid settings and a rate that has
sizes, in any arithmetic.  The tool fails if the channels are shorter than the demand, and only
then.  Otherwise it writes as many frames as whole hops come out of the shortest channel.  Each
sample is that of an engine which is fed one channel alone, in blocks of 4096.  So it is the same in
any recording of that length which has the same channel there.

The demand and the hop are natural numbers, which words hold under `Geometry.Fits`.  On the machine
this is about `Arguments.denoise` and `Arguments.result`. -/
theorem channels_apart (numerics : Numerics) (valid : s.Valid)
    (sizes : Geometry.ofRate? (ofCount r.format.rate) s = some g)
    (someChannel : 0 < r.format.channels) :
    ∃ made, Engine.create numerics (ofCount r.format.rate) s (fun _ => 0) = .ok made ∧
      let c := r.format.channels
      let heard := fun place =>
        (made.engine.setHold a.held).engine.outputOver (blocks 4096 (channel c place r.samples))
      let length := r.samples.length / c
      let frames := (length / g.hop - 1) * g.hop
      (length < g.demand → a.denoiseWith numerics s r = .error (.tooShort g.demand))
        ∧ (g.demand ≤ length → ∃ out,
            a.denoiseWith numerics s r = .ok ⟨Wave.writtenFormat c r.format.rate, out⟩
              ∧ out.length = frames * c
              ∧ ∀ i < frames, ∀ place < c, out[i * c + place]? = (heard place)[i]?)
        ∧ (∀ place < c, ∀ i, (channel c place r.samples)[i]? = r.samples[i * c + place]?)
        ∧ (∀ samples : List Float32, ∀ k, (blocks 4096 samples)[k]?
            = if k * 4096 < samples.length then some ((samples.drop (k * 4096)).take 4096)
              else none)
        ∧ (∀ out, a.denoiseWith numerics s r = .ok out →
            ∀ samples, samples.length = r.samples.length →
            ∃ out', a.denoiseWith numerics s { r with samples := samples } = .ok out'
              ∧ ∀ place < c, (∀ i, samples[i * c + place]? = r.samples[i * c + place]?) →
                  ∀ i, out'.samples[i * c + place]? = out.samples[i * c + place]?)
        ∧ ∀ settings input, a.load settings = .ok s → a.record input = .ok r →
            a.resultWith numerics settings input = a.denoiseWith numerics s r := by
  obtain ⟨made, hcreate, rfl⟩ := exists_made numerics valid sizes
  refine ⟨made, hcreate, ?_⟩
  intro c heard length frames
  have fresh : Session ([] : List (Call Float32)) (made.engine.setHold a.held).engine :=
    .holdSet a.held (.created hcreate)
  have heq := denoiseWith_eq (a := a) hcreate someChannel
  refine ⟨fun hshort => heq.trans (if_pos hshort), fun hlong => ?_,
    fun place hplace => Offline.getElem?_channel hplace _,
    fun samples => Offline.getElem?_blocks (by decide) samples, fun out hout samples hsamples => ?_,
    fun _ _ => resultWith_eq⟩
  · have hframes : made.engine.plan.geometry.yield length = frames :=
      if_neg (Nat.not_lt_of_le hlong)
    refine ⟨_, heq.trans (if_neg (Nat.not_lt_of_le hlong)), ?_, fun i hi place hplace => ?_⟩
    · rw [Offline.length_interleave, Offline.length_outputs, hframes]
    · exact Offline.getElem?_interleave_outputs fresh hplace (hframes ▸ hi)
  · -- the other recording is as long, so it meets the demand as well
    have heq' := denoiseWith_eq (a := a) (r := { r with samples := samples }) hcreate someChannel
    simp only [hsamples] at heq'
    rw [heq] at hout
    split at hout
    next => cases hout
    next hlong =>
      cases hout
      exact ⟨_, heq'.trans (if_neg hlong), fun place hplace hsame =>
        Offline.getElem?_interleave_congr fresh hplace hsamples hsame⟩

/-- Two recordings at 200 Hz on the machine.  The first channel is 0, 1, … 8 in both, and
the second is constant at another level in each.  Both give six frames, with the same first
channel. -/
theorem channels_apart_specimen :
    let a : Arguments := ⟨"in.wav", "out.wav", none, false⟩
    let recording (other : Float32) : Wave.Recording :=
      ⟨Wave.writtenFormat 2 200,
        (List.range 17).map fun i => if i % 2 = 0 then ofCount (i / 2) else other⟩
    Specimen.settings.Valid
      ∧ Geometry.ofRate? (ofCount 200) Specimen.settings = some Specimen.geometry
      ∧ ∃ out out', a.denoise Specimen.settings (recording 0.5)
            = .ok ⟨Wave.writtenFormat 2 200, out⟩
          ∧ a.denoise Specimen.settings (recording 3) = .ok ⟨Wave.writtenFormat 2 200, out'⟩
          ∧ out.length = 12 ∧ out'.length = 12
          ∧ ∀ i, out'[i * 2 + 0]? = out[i * 2 + 0]? := by
  intro a recording
  have valid : Specimen.settings.Valid := by decide +kernel
  have sizes : Geometry.ofRate? (ofCount 200) Specimen.settings = some Specimen.geometry := by
    decide +kernel
  have hsamples : ∀ other, (recording other).samples.length = 17 := fun _ => by
    rw [List.length_map, List.length_range]
  have hfirst : ∀ i, (recording 3).samples[i * 2 + 0]? = (recording 0.5).samples[i * 2 + 0]? := by
    intro i
    simp only [recording, List.getElem?_map]
    refine Option.map_congr fun k hk => ?_
    obtain ⟨hlt, rfl⟩ := List.getElem?_eq_some_iff.1 hk
    have heven : (List.range 17)[i * 2 + 0] % 2 = 0 := by
      rw [List.getElem_range, Nat.add_zero, Nat.mul_mod_left]
    rw [if_pos heven, if_pos heven]
  obtain ⟨_, -, -, hlong, -, -, hapart, -⟩ :=
    channels_apart (a := a) (r := recording 0.5) .machine valid sizes Nat.zero_lt_two
  obtain ⟨_, -, -, hlong', -⟩ :=
    channels_apart (a := a) (r := recording 3) .machine valid sizes Nat.zero_lt_two
  rw [hsamples] at hlong hlong' hapart
  obtain ⟨out, hout, hlength, -⟩ := hlong (by decide)
  obtain ⟨out', hout', hlength', -⟩ := hlong' (by decide)
  obtain ⟨other, hother, hsame⟩ := hapart _ hout (recording 3).samples (hsamples 3)
  have hother' : a.denoise Specimen.settings (recording 3) = .ok other := hother
  obtain rfl := Except.ok.inj (hother'.symm.trans hout')
  refine ⟨valid, sizes, out, out', hout, hout', hlength.trans (by decide),
    hlength'.trans (by decide), hsame 0 Nat.zero_lt_two hfirst⟩

end CommandLine.Arguments

end Denoise
