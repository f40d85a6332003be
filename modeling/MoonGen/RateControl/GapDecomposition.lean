import MoonGen.RateControl.ByteClock

/-! # How a gap is cut into fillers

The filler loop takes the whole rest as one frame while it fits, the largest frame
while the rest is long, and half of the rest in between. For sizes that leave room
between the smallest and the largest frame no cut strands a rest below the smallest
frame, so a gap of at least that size is covered to the byte.
-/

namespace MoonGen.RateLimiterCRC

open Loop

/-- The bytes of a gap from which on a filler is sent. -/
def leastWire (l : RateLimiterCRC) : Nat := l.minPacketSize.toNat + l.packetOverhead.toNat

/-- The largest filler has 16-bit length, twice the size of the smallest one and room for
the cut-off of 100 bytes. -/
structure Roomy (l : RateLimiterCRC) : Prop where
  positive : 0 < l.leastWire
  most : l.invalidPacketSize.toNat ≤ 65535
  double : 2 * l.leastWire ≤ l.invalidPacketSize.toNat
  cutoff : l.leastWire + 100 ≤ l.invalidPacketSize.toNat

theorem Roomy.sized {l : RateLimiterCRC} (hl : l.Roomy) : l.Sized := by
  obtain ⟨hpos, hmost, hdouble, hcutoff⟩ := hl
  unfold leastWire at hpos hdouble hcutoff
  constructor <;> omega

/-- A cut takes a legal frame and leaves nothing or enough for another one. -/
theorem Roomy.delayShare {l : RateLimiterCRC} (hl : l.Roomy) {delay : UInt64}
    (h : l.leastWire ≤ delay.toNat) :
    l.leastWire ≤ (l.delayShare delay).toNat ∧
      (l.delayShare delay).toNat ≤ l.invalidPacketSize.toNat ∧
      ((l.delayShare delay).toNat = delay.toNat ∨
        (l.delayShare delay).toNat + l.leastWire ≤ delay.toNat) := by
  have hshare := delayShare_toNat hl.sized delay
  obtain ⟨hpos, hmost, hdouble, hcutoff⟩ := hl
  split at hshare
  · omega
  · split at hshare
    · omega
    · omega

/-! ## The rounds of the loop -/

theorem Sized.wire_getDelayPacket {l : RateLimiterCRC} (hl : l.Sized) {delay : UInt64}
    (h : l.needsDelayPacket delay = true) :
    (l.getDelayPacket delay).pktLen.toNat + l.packetOverhead.toNat =
      (l.delayShare delay).toNat := by
  have hlen := (l.getDelayPacket delay).pktLen.toNat_lt
  have hover := hl.overhead
  have hmost := hl.most
  have hsize := congrArg UInt64.toNat (wireSize_getDelayPacket hl h)
  rw [wireSize, UInt64.toNat_add, UInt32.toNat_toUInt64, Nat.mod_eq_of_lt (by omega)] at hsize
  exact hsize

theorem Sized.gapStep_delay {l : RateLimiterCRC} (hl : l.Sized) {g : Gap}
    (h : l.needsDelayPacket g.delay = true) :
    (l.gapStep g).delay.toNat = g.delay.toNat - (l.delayShare g.delay).toNat := by
  obtain ⟨_, hle, _, _⟩ := delayShare_bounds hl h
  simp only [gapStep, wireSize_getDelayPacket hl h]
  exact UInt64.toNat_sub_of_le _ _ (UInt64.le_iff_toNat_le.mpr hle)

/-- Fillers and rest make up the delay, and the rest is too short for another filler. -/
theorem Sized.gap_total {l : RateLimiterCRC} (hl : l.Sized) {fuel : Nat} {delay : UInt64} {g : Gap}
    (h : l.gap fuel delay = some g) :
    wireBytes l.packetOverhead g.frames + g.delay.toNat = delay.toNat ∧
      g.delay.toNat < l.leastWire := by
  have hround : ∀ g : Gap, wireBytes l.packetOverhead g.frames + g.delay.toNat = delay.toNat →
      l.needsDelayPacket g.delay = true →
      wireBytes l.packetOverhead (l.gapStep g).frames + (l.gapStep g).delay.toNat =
        delay.toNat := by
    intro g htotal hg
    obtain ⟨_, hle, _, _⟩ := delayShare_bounds hl hg
    have hone : wireBytes l.packetOverhead [l.getDelayPacket g.delay] =
        (l.delayShare g.delay).toNat := by
      rw [wireBytes_cons, wireBytes_nil, Nat.add_zero, hl.wire_getDelayPacket hg]
    rw [hl.gapStep_delay hg, gapStep, wireBytes_append, hone]
    omega
  obtain ⟨htotal, hexit⟩ := whileFuel_invariant _ hround (by simp) h
  refine ⟨htotal, ?_⟩
  by_contra hlong
  rw [(needsDelayPacket_iff hl g.delay).mpr (Nat.not_lt.mp hlong)] at hexit
  cases hexit

theorem Sized.gap_of_short {l : RateLimiterCRC} (hl : l.Sized) {delay : UInt64}
    (h : delay.toNat < l.leastWire) (fuel : Nat) : l.gap fuel delay = some ⟨delay, []⟩ := by
  apply whileFuel_exit
  by_contra hneeds
  have hmin := (needsDelayPacket_iff hl delay).mp (by simpa using hneeds)
  exact Nat.not_lt.mpr hmin h

/-- What holds between two rounds for a delay that is long enough for a filler. -/
structure Covering (l : RateLimiterCRC) (g : Gap) : Prop where
  legal : ∀ f ∈ g.frames, l.leastWire ≤ f.pktLen.toNat + l.packetOverhead.toNat ∧
    f.pktLen.toNat + l.packetOverhead.toNat ≤ l.invalidPacketSize.toNat
  rest : g.delay.toNat = 0 ∨ l.leastWire ≤ g.delay.toNat

theorem Covering.round {l : RateLimiterCRC} (hl : l.Roomy) {g : Gap} (h : l.Covering g)
    (hg : l.needsDelayPacket g.delay = true) : l.Covering (l.gapStep g) := by
  have hmin := (needsDelayPacket_iff hl.sized g.delay).mp hg
  obtain ⟨hleast, hmost, hrest⟩ := hl.delayShare hmin
  constructor
  · intro f hf
    rcases List.mem_append.mp hf with hf | hf
    · exact h.legal f hf
    · rw [List.mem_singleton.mp hf, hl.sized.wire_getDelayPacket hg]
      exact ⟨hleast, hmost⟩
  · rw [hl.sized.gapStep_delay hg]
    omega

theorem Roomy.gap {l : RateLimiterCRC} (hl : l.Roomy) (delay : UInt64) :
    ∃ g, l.gap delay.toNat delay = some g ∧
      (l.leastWire ≤ delay.toNat → l.Covering g ∧ g.delay = 0) ∧
      (delay.toNat < l.leastWire → g = ⟨delay, []⟩) := by
  obtain ⟨g, hg⟩ := gap_exists hl.sized delay
  refine ⟨g, hg, ?_, ?_⟩
  · intro hlong
    have hinit : l.Covering ⟨delay, []⟩ := ⟨by simp, .inr hlong⟩
    have hcover := (whileFuel_invariant l.Covering (fun g h hg => h.round hl hg) hinit hg).1
    have hshort := (hl.sized.gap_total hg).2
    refine ⟨hcover, UInt64.toNat_inj.mp ?_⟩
    rcases hcover.rest with hzero | hmore
    · exact hzero
    · exact absurd hshort (Nat.not_lt.mpr hmore)
  · intro hshort
    exact Option.some.inj (hg.symm.trans (hl.sized.gap_of_short hshort _))

/-! ## The loop of the call -/

/-- The filler loop ends. It stores frames that cover a delay of at least the smallest frame
to the byte, and stores nothing for a smaller one, which is carried over. -/
def DecomposesGap (l : RateLimiterCRC) (s : SendState) : Prop :=
  ∃ fuel t frames, l.delayPackets fuel s = some t ∧
    t.batch.contents = s.batch.contents ++ frames ∧
    (l.leastWire ≤ s.delay.toNat →
      (∀ f ∈ frames, l.leastWire ≤ f.pktLen.toNat + l.packetOverhead.toNat ∧
        f.pktLen.toNat + l.packetOverhead.toNat ≤ l.invalidPacketSize.toNat) ∧
      wireBytes l.packetOverhead frames = s.delay.toNat ∧
      ∀ last pkt, (loadPacket last pkt t).previousMissingDelay = 0) ∧
    (s.delay.toNat < l.leastWire →
      frames = [] ∧ ∀ last pkt, (loadPacket last pkt t).previousMissingDelay = s.delay)

/-- No difference that a round takes at this delay is negative: the cut-off where it is
computed, the length of the frame, the rest, and the bytes for the statistics. -/
structure NoUnderflow (l : RateLimiterCRC) (delay : UInt64) : Prop where
  cutoff : l.invalidPacketSize < delay → 100 ≤ 2 * l.invalidPacketSize
  length : l.packetOverhead ≤ l.delayShare delay
  rest : l.wireSize (l.getDelayPacket delay) ≤ delay
  bytes : 20 ≤ l.wireSize (l.getDelayPacket delay)

def DelayRound (l : RateLimiterCRC) : SendState → SendState → Prop :=
  Round (fun s => l.needsDelayPacket s.delay) l.delayPacket

theorem Roomy.decomposesGap {l : RateLimiterCRC} (hl : l.Roomy) (s : SendState) :
    l.DecomposesGap s := by
  obtain ⟨g, hg, hlong, hshort⟩ := hl.gap s.delay
  refine ⟨s.delay.toNat, s.withGap l g, g.frames, ?_, ?_, ?_, ?_⟩
  · rw [delayPackets_eq, hg, Option.map_some]
  · exact Batch.contents_emitAll _ _
  · intro h
    obtain ⟨hcover, hzero⟩ := hlong h
    have htotal := (hl.sized.gap_total hg).1
    rw [hzero] at htotal
    exact ⟨hcover.legal, htotal, fun _ _ => hzero⟩
  · intro h
    rw [hshort h]
    exact ⟨rfl, fun _ _ => rfl⟩

theorem Roomy.noUnderflow {l : RateLimiterCRC} (hl : l.Roomy) (h20 : 20 ≤ l.leastWire)
    {delay : UInt64} (h : l.needsDelayPacket delay = true) : l.NoUnderflow delay := by
  have hsize := wireSize_getDelayPacket hl.sized h
  have hmin := (needsDelayPacket_iff hl.sized delay).mp h
  obtain ⟨hleast, _, _⟩ := hl.delayShare hmin
  obtain ⟨_, hle, hover, _⟩ := delayShare_bounds hl.sized h
  constructor
  · intro _
    have hlarge := hl.cutoff
    have hmost := hl.most
    rw [UInt64.le_iff_toNat_le, UInt64.toNat_mul]
    simp only [UInt64.reduceToNat]
    omega
  · exact UInt64.le_iff_toNat_le.mpr hover
  · rw [hsize]
    exact UInt64.le_iff_toNat_le.mpr hle
  · rw [hsize, UInt64.le_iff_toNat_le]
    exact Nat.le_trans h20 hleast

/-- Every gap comes out even. The differences of the loop are all taken without underflow
exactly when the smallest filler has the 20 bytes that the statistics leave out. -/
theorem gap_decomposes (l : RateLimiterCRC) (hl : l.Roomy) :
    (∀ s, l.DecomposesGap s) ∧
      ((∀ s t, l.DelayRound s t → l.NoUnderflow t.delay) ↔ 20 ≤ l.leastWire) := by
  refine ⟨hl.decomposesGap, ?_, ?_⟩
  · intro hall
    -- a gap as long as the smallest filler is one frame of this size
    have hfit : l.leastWire < 2 ^ 64 := hl.sized.noWrap
    have hdelay : (UInt64.ofNat l.leastWire).toNat = l.leastWire :=
      UInt64.toNat_ofNat_of_lt' hfit
    have hneeds : l.needsDelayPacket (UInt64.ofNat l.leastWire) = true := by
      rw [needsDelayPacket_iff hl.sized, hdelay, leastWire]
    have hround := hall ⟨0, UInt64.ofNat l.leastWire, .empty, 0, 0⟩ _ (.first hneeds)
    have hbytes := hround.bytes
    rw [wireSize_getDelayPacket hl.sized hneeds, UInt64.le_iff_toNat_le] at hbytes
    obtain ⟨_, hle, _, _⟩ := delayShare_bounds hl.sized hneeds
    rw [hdelay] at hle
    exact Nat.le_trans hbytes hle
  · intro h20 s t hround
    obtain ⟨_, hneeds⟩ := hround.invariant (fun _ => True) (fun _ _ _ => trivial) trivial
    exact hl.noUnderflow h20 hneeds

theorem gap_decomposes_low_rate :
    (∀ s, (RateLimiterCRC.new 84 20 1500).DecomposesGap s) ∧
      ((∀ s t, (RateLimiterCRC.new 84 20 1500).DelayRound s t →
        (RateLimiterCRC.new 84 20 1500).NoUnderflow t.delay) ↔
        20 ≤ (RateLimiterCRC.new 84 20 1500).leastWire) :=
  gap_decomposes _ ⟨by decide, by decide, by decide, by decide⟩

/-- A filler of ten wire bytes has fewer than the statistics leave out. -/
theorem ten_bytes_underflow :
    (RateLimiterCRC.new 10 0 110).Roomy ∧
      ∃ s t, (RateLimiterCRC.new 10 0 110).DelayRound s t ∧
        ¬ (RateLimiterCRC.new 10 0 110).NoUnderflow t.delay := by
  refine ⟨⟨by decide, by decide, by decide, by decide⟩, ?_⟩
  refine ⟨⟨0, 10, .empty, 0, 0⟩, ⟨0, 10, .empty, 0, 0⟩, .first (by decide), ?_⟩
  intro h
  exact absurd h.bytes (by decide)

end MoonGen.RateLimiterCRC
