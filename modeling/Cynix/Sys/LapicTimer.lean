import Cynix.Sys.Devices

/-! # The arithmetic of the local APIC timer (`sys/lapic.c`, `sys/pit.c`)

`lapic_timer_calibrate` counts PIT ticks while the timer runs down, and
`lapic_timer_oneshot` turns microseconds into an initial count. Both divide
before they multiply, so the remainder is lost as many times as the factor
says; and the difference of two PIT readings is taken as if the counter had
not reloaded in between. -/
namespace Cynix.Sys.LapicTimer
open Cynix.Base.Bytes Cynix.Base.Trace Cynix.Lib.Misc Cynix.Mm.Access Cynix.Acpi.Tables Cynix.Sys.Devices

/-! ## The PIT -/

/-- `pit_get_current_count`, of the two bytes that come from the data port. -/
def pitGetCurrentCount (lo hi : BitVec 8) : BitVec 16 := hi.setWidth 16 <<< 8 ||| lo.setWidth 16

/-- `pit_set_reload_value`: the two bytes that go to the data port. -/
def pitSetReloadValue (newCount : BitVec 16) : BitVec 8 × BitVec 8 :=
  (newCount.setWidth 8, (newCount >>> 8).setWidth 8)

/-- The count that the PIT has latched, as the kernel reads it: the low byte comes first. -/
def reading (count : BitVec 16) : BitVec 16 := pitGetCurrentCount (count.extractLsb' 0 8) (count.extractLsb' 8 8)

/-- The value that the PIT reloads with after these bytes: the low byte comes first. -/
def reloadsWith (bytes : BitVec 8 × BitVec 8) : Nat := (bytes.2 ++ bytes.1).toNat

/-- The ticks between two counts, if there are less than a whole turn of them. -/
def elapsed (initial final : BitVec 16) : Nat :=
  (initial.toNat + reloadsWith (pitSetReloadValue 0xfff0) - final.toNat) % reloadsWith (pitSetReloadValue 0xfff0)

theorem reading_eq (count : BitVec 16) : reading count = count := by
  rw [reading, pitGetCurrentCount, ← BitVec.setWidth_append_eq_shiftLeft_setWidth_or, BitVec.setWidth_eq]
  exact BitVec.extractLsb'_append_extractLsb'

theorem elapsed_eq (initial final : BitVec 16) :
    elapsed initial final = (initial.toNat + 0xfff0 - final.toNat) % 0xfff0 := rfl

/-! ## One shot -/

section
variable (hhdm : Nat) (mem : Mem) (x2apicMode : Bool) (cpu : Cpu) (lapicBase : Nat)

/-- `lapic_timer_oneshot`, with `lapic_base` afterwards. -/
def lapicTimerOneshot (freq vec us : Nat) : Boot Nat := do
  let base ← lapicTimerStop hhdm x2apicMode cpu lapicBase
  let ticks := us * (freq / 1000000) % 2 ^ 64
  let base ← lapicWrite hhdm x2apicMode cpu base lapicRegTimer vec
  let base ← lapicWrite hhdm x2apicMode cpu base lapicRegTimerDiv 0b1011
  lapicWrite hhdm x2apicMode cpu base lapicRegTimerInitcnt ticks

/-- The store of an initial count. -/
def initcntWrite (count : Nat) : Event :=
  if x2apicMode then .wrmsr (0x800 + (lapicRegTimerInitcnt >>> 4)) count
  else .access (xapicBase hhdm cpu lapicBase + lapicRegTimerInitcnt) 4 (some count)

end

/-! ## What is promised -/

/-- A whole number next to a quotient. -/
def Close (c num den : Nat) : Prop := |(c : ℚ) - (num : ℚ) / den| ≤ 1

/-- The measurement of a frequency: where it is accepted it was long enough, and the frequency is
next to the quotient of the samples and the time. -/
def CalibrateOk (hhdm : Nat) (mem : Mem) (x2apicMode : Bool) (cpu : Cpu) (lapicBase samples : Nat)
    (initial final : BitVec 16) : Prop :=
  ∀ freq base, (lapicTimerCalibrate hhdm mem x2apicMode cpu lapicBase).outcome = .returns (freq, base) →
    0x4000 ≤ elapsed initial final ∧ Close freq (samples * pitDividend) (elapsed initial final)

/-- The initial count, which is programmed last, is next to the quotient. -/
def OneshotOk (hhdm : Nat) (x2apicMode : Bool) (cpu : Cpu) (lapicBase freq vec us : Nat) : Prop :=
  ∃ count, (lapicTimerOneshot hhdm x2apicMode cpu lapicBase freq vec us).events.getLast? =
      some (initcntWrite hhdm x2apicMode cpu lapicBase count) ∧
    Close count (us * freq) (10 ^ 6)

/-! ## Quotients -/

/-- Dividing before multiplying loses the remainder as many times as the factor says. -/
theorem close_truncated_iff {n d k : Nat} (hd : 0 < d) : Close (n / d * k) (n * k) d ↔ k * (n % d) ≤ d := by
  have hd' : (0 : ℚ) < d := by exact_mod_cast hd
  have hn : (n : ℚ) = d * (n / d : Nat) + (n % d : Nat) := by exact_mod_cast (Nat.div_add_mod n d).symm
  have hdiff : ((n / d * k : Nat) : ℚ) - ((n * k : Nat) : ℚ) / d = -((k * (n % d) : Nat) / d) := by
    push_cast
    field_simp
    linear_combination (-(k : ℚ)) * hn
  unfold Close
  rw [hdiff, abs_neg, abs_of_nonneg (by positivity), div_le_one hd']
  exact_mod_cast Iff.rfl

theorem close_zero_iff {n d : Nat} (hd : 0 < d) : Close 0 n d ↔ n ≤ d := by
  have hd' : (0 : ℚ) < d := by exact_mod_cast hd
  unfold Close
  rw [Nat.cast_zero, zero_sub, abs_neg, abs_of_nonneg (by positivity), div_le_one hd']
  exact_mod_cast Iff.rfl

/-! ## The registers

Every access returns, and leaves `lapic_base` as good as it was. -/

section
variable {hhdm : Nat} {mem : Mem} {x2apicMode : Bool} {cpu : Cpu} (lapicBase : Nat)

theorem lapicWrite_returns (reg val : Nat) :
    ∃ base, (lapicWrite hhdm x2apicMode cpu lapicBase reg val).outcome = .returns base ∧
      xapicBase hhdm cpu base = xapicBase hhdm cpu lapicBase := by
  cases x2apicMode with
  | true => exact ⟨lapicBase, rfl, rfl⟩
  | false => exact ⟨xapicBase hhdm cpu lapicBase, rfl, xapicBase_xapicBase ..⟩

theorem lapicTimerStop_returns :
    ∃ base, (lapicTimerStop hhdm x2apicMode cpu lapicBase).outcome = .returns base ∧
      xapicBase hhdm cpu base = xapicBase hhdm cpu lapicBase := by
  obtain ⟨base, h, hbase⟩ := lapicWrite_returns lapicBase lapicRegTimerInitcnt 0
  obtain ⟨base', h', hbase'⟩ := lapicWrite_returns base lapicRegTimer (1 <<< 16)
  refine ⟨base', ?_, hbase'.trans hbase⟩
  rw [lapicTimerStop, bind_outcome h, h']

theorem lapicRead_returns (reg : Nat) :
    ∃ r, (lapicRead hhdm mem x2apicMode cpu lapicBase reg).outcome = .returns r := by
  cases x2apicMode with
  | true => exact ⟨_, rfl⟩
  | false => exact ⟨_, rfl⟩

theorem pollTimer_returns (n : Nat) :
    ∃ base, (pollTimer hhdm mem x2apicMode cpu lapicBase n).outcome = .returns base := by
  induction n generalizing lapicBase with
  | zero =>
    obtain ⟨r, hr⟩ := lapicRead_returns lapicBase lapicRegTimerCurcnt
    exact ⟨r.2, by rw [pollTimer, bind_outcome hr, pure_outcome]⟩
  | succ n ih =>
    obtain ⟨r, hr⟩ := lapicRead_returns lapicBase lapicRegTimerCurcnt
    obtain ⟨base, h⟩ := ih r.2
    exact ⟨base, by rw [pollTimer, bind_outcome hr, h]⟩

theorem initcntWrite_congr {base : Nat} (h : xapicBase hhdm cpu base = xapicBase hhdm cpu lapicBase) (count : Nat) :
    initcntWrite hhdm x2apicMode cpu base count = initcntWrite hhdm x2apicMode cpu lapicBase count := by
  unfold initcntWrite
  rw [h]

theorem lapicWrite_initcnt_events {count : Nat} (hcount : count < 2 ^ 32) :
    (lapicWrite hhdm x2apicMode cpu lapicBase lapicRegTimerInitcnt count).events =
      [initcntWrite hhdm x2apicMode cpu lapicBase count] := by
  cases x2apicMode with
  | true =>
    have hwrmsr : count % 2 ^ 64 = count := Nat.mod_eq_of_lt (by omega)
    exact congrArg (fun v => [Event.wrmsr (0x800 + (lapicRegTimerInitcnt >>> 4)) v]) hwrmsr
  | false =>
    have hstore : count % 2 ^ 32 = count := Nat.mod_eq_of_lt hcount
    exact congrArg (fun v => [Event.access (xapicBase hhdm cpu lapicBase + lapicRegTimerInitcnt) 4 (some v)]) hstore

/-! ## The measurement -/

/-- One round: the measurement is repeated with twice the samples if it was too short. -/
theorem measureLoop_cons (samples : Nat) (round : Round) (rounds : List Round) :
    ∃ base, (measureLoop hhdm mem x2apicMode cpu lapicBase samples (round :: rounds)).outcome =
      if sub64 round.initialPitTick round.finalPitTick < 0x4000 then
        (measureLoop hhdm mem x2apicMode cpu base (samples * 2 % 2 ^ 64) rounds).outcome
      else .returns (samples / sub64 round.initialPitTick round.finalPitTick * pitDividend % 2 ^ 64, base) := by
  obtain ⟨base, hwrite, -⟩ := lapicWrite_returns lapicBase lapicRegTimerInitcnt samples
  obtain ⟨base', hpoll⟩ := pollTimer_returns base round.polls
  have hround : measureLoop hhdm mem x2apicMode cpu lapicBase samples (round :: rounds) = (do
      let base ← lapicWrite hhdm x2apicMode cpu lapicBase lapicRegTimerInitcnt samples
      let base ← pollTimer hhdm mem x2apicMode cpu base round.polls
      if sub64 round.initialPitTick round.finalPitTick < 0x4000 then
        measureLoop hhdm mem x2apicMode cpu base (samples * 2 % 2 ^ 64) rounds
      else pure (samples / sub64 round.initialPitTick round.finalPitTick * pitDividend % 2 ^ 64, base)) := rfl
  refine ⟨base', ?_⟩
  rw [hround, bind_outcome hwrite, bind_ite_outcome hpoll, pure_outcome]

/-- After the rounds that were too short, the last one decides. -/
theorem measureLoop_outcome {early : List Round} (last : Round) {samples : Nat}
    (hearly : ∀ r ∈ early, sub64 r.initialPitTick r.finalPitTick < 0x4000)
    (hsamples : samples * 2 ^ early.length < 2 ^ 32) :
    ∃ base, (measureLoop hhdm mem x2apicMode cpu lapicBase samples (early ++ [last])).outcome =
      if sub64 last.initialPitTick last.finalPitTick < 0x4000 then .runs
      else .returns (samples * 2 ^ early.length / sub64 last.initialPitTick last.finalPitTick * pitDividend % 2 ^ 64,
        base) := by
  induction early generalizing lapicBase samples with
  | nil =>
    obtain ⟨base, hround⟩ := measureLoop_cons lapicBase samples last []
    refine ⟨base, ?_⟩
    rw [List.nil_append, hround, measureLoop, running_outcome, List.length_nil, Nat.pow_zero, Nat.mul_one]
  | cons round early ih =>
    obtain ⟨base, hround⟩ := measureLoop_cons lapicBase samples round (early ++ [last])
    have hdouble : samples * 2 ^ (round :: early).length = samples * 2 * 2 ^ early.length := by
      rw [List.length_cons, Nat.pow_succ']
      ring
    have hsmall : samples * 2 ≤ samples * 2 * 2 ^ early.length := Nat.le_mul_of_pos_right _ (by positivity)
    rw [hdouble] at hsamples ⊢
    obtain ⟨base', hrest⟩ := ih base (fun r hr => hearly r (List.mem_cons_of_mem _ hr)) hsamples
    refine ⟨base', ?_⟩
    rw [List.cons_append, hround, if_pos (hearly round (List.mem_cons_self ..)), Nat.mod_eq_of_lt (by omega), hrest]

/-- Without a clock in CPUID the frequency is measured. -/
theorem lapicTimerCalibrate_outcome (hclock : cpu.coreClock = 0) :
    ∃ base, (lapicTimerCalibrate hhdm mem x2apicMode cpu lapicBase).outcome =
      (measureLoop hhdm mem x2apicMode cpu base 16 cpu.rounds >>= fun r =>
        lapicTimerStop hhdm x2apicMode cpu r.2 >>= fun base => pure (r.1, base)).outcome := by
  obtain ⟨base, hstop, -⟩ := lapicTimerStop_returns lapicBase
  obtain ⟨base', htimer, -⟩ := lapicWrite_returns base lapicRegTimer ((1 <<< 16) ||| 0xff)
  obtain ⟨base'', hdiv, -⟩ := lapicWrite_returns base' lapicRegTimerDiv 0b1011
  refine ⟨base'', ?_⟩
  rw [lapicTimerCalibrate, bind_outcome hstop, bind_outcome htimer, bind_ite_outcome hdiv,
    if_neg (not_not.mpr hclock)]

theorem lapicTimerCalibrate_returns {early : List Round} {last : Round} (hclock : cpu.coreClock = 0)
    (hrounds : cpu.rounds = early ++ [last])
    (hearly : ∀ r ∈ early, sub64 r.initialPitTick r.finalPitTick < 0x4000)
    (hsamples : 16 * 2 ^ early.length < 2 ^ 32) (freq : Nat) :
    (∃ base, (lapicTimerCalibrate hhdm mem x2apicMode cpu lapicBase).outcome = .returns (freq, base)) ↔
      0x4000 ≤ sub64 last.initialPitTick last.finalPitTick ∧
        freq = 16 * 2 ^ early.length / sub64 last.initialPitTick last.finalPitTick * pitDividend % 2 ^ 64 := by
  obtain ⟨base, hreach⟩ := lapicTimerCalibrate_outcome lapicBase hclock
  obtain ⟨base', hloop⟩ := measureLoop_outcome base last hearly hsamples
  rw [hreach, hrounds]
  by_cases hticks : sub64 last.initialPitTick last.finalPitTick < 0x4000
  · have hruns : ∀ r, (measureLoop hhdm mem x2apicMode cpu base 16 (early ++ [last])).outcome ≠ .returns r := by
      intro r hr
      rw [hloop, if_pos hticks] at hr
      cases hr
    constructor
    · intro h
      obtain ⟨base'', h⟩ := h
      exact absurd h ((bind_stuck _ hruns).2 _)
    · intro h
      exact absurd hticks (Nat.not_lt.mpr h.1)
  · rw [if_neg hticks] at hloop
    obtain ⟨base'', hstop, -⟩ := lapicTimerStop_returns base'
    rw [bind_outcome hloop, bind_outcome hstop, pure_outcome]
    constructor
    · intro h
      obtain ⟨_, h⟩ := h
      obtain ⟨rfl, -⟩ := Prod.mk.inj (Outcome.returns.inj h)
      exact ⟨Nat.not_lt.mp hticks, rfl⟩
    · intro h
      rw [h.2]
      exact ⟨base'', rfl⟩

/-- The difference of two readings is the time between them if the PIT did not reload. -/
theorem ticks_of_le {initial final : BitVec 16} (hi : initial.toNat ≤ 0xfff0) (hf : 1 ≤ final.toNat)
    (h : final.toNat ≤ initial.toNat) :
    sub64 initial.toNat final.toNat = initial.toNat - final.toNat ∧
      elapsed initial final = initial.toNat - final.toNat := by
  rw [elapsed_eq, sub64]
  omega

/-- If it did, the difference is next to 2^64. -/
theorem ticks_of_lt {initial final : BitVec 16} (h : initial.toNat < final.toNat) :
    2 ^ 32 ≤ sub64 initial.toNat final.toNat := by
  rw [sub64]
  omega

/-- A quotient that is cut off is close only if nothing is cut off: the PIT ticks more often in a second than
its counter has values. -/
theorem close_measured_iff {samples t : Nat} (ht : 0 < t) (ht' : t < 0xfff0) (hsamples : samples < 2 ^ 32) :
    Close (samples / t * pitDividend % 2 ^ 64) (samples * pitDividend) t ↔ t ∣ samples := by
  have hsmall : samples / t * pitDividend ≤ samples * pitDividend :=
    Nat.mul_le_mul_right _ (Nat.div_le_self samples t)
  rw [Nat.mod_eq_of_lt (by unfold pitDividend at *; omega), close_truncated_iff ht, Nat.dvd_iff_mod_eq_zero]
  unfold pitDividend
  omega

/-- What a measurement has to do to be right, and when it does. -/
theorem measured_iff {initial final : BitVec 16} {samples : Nat} (hpos : 0 < samples) (hsamples : samples < 2 ^ 32)
    (hi : initial.toNat ≤ 0xfff0) (hf : 1 ≤ final.toNat) :
    (0x4000 ≤ sub64 initial.toNat final.toNat → 0x4000 ≤ elapsed initial final ∧
        Close (samples / sub64 initial.toNat final.toNat * pitDividend % 2 ^ 64) (samples * pitDividend)
          (elapsed initial final)) ↔
      final.toNat ≤ initial.toNat ∧
        (initial.toNat - final.toNat < 0x4000 ∨ initial.toNat - final.toNat ∣ samples) := by
  by_cases hle : final.toNat ≤ initial.toNat
  · obtain ⟨hsub, helapsed⟩ := ticks_of_le hi hf hle
    rw [hsub, helapsed]
    by_cases hshort : initial.toNat - final.toNat < 0x4000
    · exact iff_of_true (fun h => absurd h (by omega)) ⟨hle, .inl hshort⟩
    · rw [close_measured_iff (by omega) (by omega) hsamples]
      constructor
      · intro h
        exact ⟨hle, .inr (h (by omega)).2⟩
      · intro h _
        exact ⟨by omega, h.2.resolve_left hshort⟩
  · have hlarge := ticks_of_lt (Nat.lt_of_not_le hle)
    have hzero : samples / sub64 initial.toNat final.toNat * pitDividend % 2 ^ 64 = 0 := by
      rw [Nat.div_eq_of_lt (by omega), Nat.zero_mul, Nat.zero_mod]
    have hshort : elapsed initial final < 0xfff0 := Nat.mod_lt _ (by decide)
    refine iff_of_false (fun h => ?_) (fun h => hle h.1)
    -- a frequency of 0 is no answer, the timer has counted
    obtain ⟨hlong, hclose⟩ := h (by omega)
    rw [hzero, close_zero_iff (by omega), pitDividend] at hclose
    omega

theorem calibrateOk_iff {early : List Round} {initial final : BitVec 16} {polls : Nat} (hclock : cpu.coreClock = 0)
    (hrounds : cpu.rounds = early ++ [⟨(reading initial).toNat, (reading final).toNat, polls⟩])
    (hearly : ∀ r ∈ early, sub64 r.initialPitTick r.finalPitTick < 0x4000)
    (hsamples : 16 * 2 ^ early.length < 2 ^ 32) (hi : initial.toNat ≤ 0xfff0) (hf : 1 ≤ final.toNat) :
    CalibrateOk hhdm mem x2apicMode cpu lapicBase (16 * 2 ^ early.length) initial final ↔
      final.toNat ≤ initial.toNat ∧
        (initial.toNat - final.toNat < 0x4000 ∨ initial.toNat - final.toNat ∣ 16 * 2 ^ early.length) := by
  rw [reading_eq, reading_eq] at hrounds
  rw [← measured_iff (by positivity) hsamples hi hf]
  constructor
  · intro h hticks
    obtain ⟨base, hreturns⟩ := (lapicTimerCalibrate_returns lapicBase hclock hrounds hearly hsamples _).mpr ⟨hticks, rfl⟩
    exact h _ base hreturns
  · intro h freq base hreturns
    obtain ⟨hticks, rfl⟩ := (lapicTimerCalibrate_returns lapicBase hclock hrounds hearly hsamples freq).mp ⟨base, hreturns⟩
    exact h hticks

/-! ## The initial count -/

theorem initcntWrite_inj {count count' : Nat}
    (h : initcntWrite hhdm x2apicMode cpu lapicBase count = initcntWrite hhdm x2apicMode cpu lapicBase count') :
    count = count' := by
  cases x2apicMode with
  | true => exact (Event.wrmsr.inj h).2
  | false => exact Option.some.inj (Event.access.inj h).2.2

/-- The last thing that happens is the store of the count. -/
theorem lapicTimerOneshot_getLast {freq us : Nat} (vec : Nat) (hcount : us * freq / 10 ^ 6 < 2 ^ 32) :
    (lapicTimerOneshot hhdm x2apicMode cpu lapicBase freq vec us).events.getLast? =
      some (initcntWrite hhdm x2apicMode cpu lapicBase (us * (freq / 10 ^ 6))) := by
  have hsmall : us * (freq / 10 ^ 6) < 2 ^ 32 := lt_of_le_of_lt (Nat.mul_div_le_mul_div_assoc us freq (10 ^ 6)) hcount
  have hticks : us * (freq / 1000000) % 2 ^ 64 = us * (freq / 10 ^ 6) := Nat.mod_eq_of_lt (hsmall.trans (by decide))
  obtain ⟨base, hstop, hbase⟩ := lapicTimerStop_returns lapicBase
  obtain ⟨base', htimer, hbase'⟩ := lapicWrite_returns base lapicRegTimer vec
  obtain ⟨base'', hdiv, hbase''⟩ := lapicWrite_returns base' lapicRegTimerDiv 0b1011
  have hsame : xapicBase hhdm cpu base'' = xapicBase hhdm cpu lapicBase := (hbase''.trans hbase').trans hbase
  rw [lapicTimerOneshot, hticks, bind_events hstop]
  rw [bind_events htimer, bind_events hdiv, lapicWrite_initcnt_events base'' hsmall, initcntWrite_congr lapicBase hsame]
  rw [← List.append_assoc, ← List.append_assoc, List.getLast?_concat]

theorem oneshotOk_iff {freq us : Nat} (vec : Nat) (hcount : us * freq / 10 ^ 6 < 2 ^ 32) :
    OneshotOk hhdm x2apicMode cpu lapicBase freq vec us ↔ us * (freq % 10 ^ 6) ≤ 10 ^ 6 := by
  have hclose : Close (us * (freq / 10 ^ 6)) (us * freq) (10 ^ 6) ↔ us * (freq % 10 ^ 6) ≤ 10 ^ 6 := by
    rw [Nat.mul_comm us (freq / 10 ^ 6), Nat.mul_comm us freq]
    exact close_truncated_iff (by decide)
  rw [← hclose]
  constructor
  · intro h
    obtain ⟨count, hwrite, h⟩ := h
    rw [lapicTimerOneshot_getLast lapicBase vec hcount] at hwrite
    rwa [initcntWrite_inj lapicBase (Option.some.inj hwrite)]
  · intro h
    exact ⟨_, lapicTimerOneshot_getLast lapicBase vec hcount, h⟩

/-! ## When the arithmetic is right -/

/-- A measurement is right if the PIT has not reloaded and nothing is cut off, and so is the count of one shot
if no more than one tick is cut off. -/
theorem lapic_timer_iff {early : List Round} {initial final : BitVec 16} {polls freq vec us : Nat}
    (hclock : cpu.coreClock = 0)
    (hrounds : cpu.rounds = early ++ [⟨(reading initial).toNat, (reading final).toNat, polls⟩])
    (hearly : ∀ r ∈ early, sub64 r.initialPitTick r.finalPitTick < 0x4000)
    (hsamples : 16 * 2 ^ early.length < 2 ^ 32) (hi : initial.toNat ≤ 0xfff0) (hf : 1 ≤ final.toNat)
    (hcount : us * freq / 10 ^ 6 < 2 ^ 32) :
    (CalibrateOk hhdm mem x2apicMode cpu lapicBase (16 * 2 ^ early.length) initial final ↔
      final.toNat ≤ initial.toNat ∧
        (initial.toNat - final.toNat < 0x4000 ∨ initial.toNat - final.toNat ∣ 16 * 2 ^ early.length)) ∧
    (OneshotOk hhdm x2apicMode cpu lapicBase freq vec us ↔ us * (freq % 10 ^ 6) ≤ 10 ^ 6) :=
  ⟨calibrateOk_iff lapicBase hclock hrounds hearly hsamples hi hf, oneshotOk_iff lapicBase vec hcount⟩

end

/-- The rounds that are too short for a timer that counts 16 while the PIT counts `ticks`. -/
def earlyRounds (ticks : Nat) : List Round := (List.range 12).map fun k => ⟨0xfff0, 0xfff0 - ticks * 2 ^ k, 0⟩

/-- A processor that measures with 65536 samples in the end. -/
def measuringCpu (ticks : Nat) (initial final : BitVec 16) : Cpu :=
  ⟨0, fun _ => 0xfee00900, false, false, 0, earlyRounds ticks ++ [⟨initial.toNat, final.toNat, 0⟩]⟩

theorem measuringCpu_rounds (ticks : Nat) (initial final : BitVec 16) :
    (measuringCpu ticks initial final).rounds =
      earlyRounds ticks ++ [⟨(reading initial).toNat, (reading final).toNat, 0⟩] := by
  rw [reading_eq, reading_eq, measuringCpu]

theorem lapic_timer_iff_whole :
    CalibrateOk 0xffff800000000000 (fun _ => 0) false (measuringCpu 4 0xfff0 0xbff0) 0 (16 * 2 ^ 12) 0xfff0 0xbff0 ∧
      OneshotOk 0xffff800000000000 false (measuringCpu 4 0xfff0 0xbff0) 0 1000000000 0x20 1000 := by
  have hearly : ∀ r ∈ earlyRounds 4, sub64 r.initialPitTick r.finalPitTick < 0x4000 := by decide
  have hcount : 1000 * 1000000000 / 10 ^ 6 < 2 ^ 32 := by decide
  obtain ⟨hcalibrate, honeshot⟩ := lapic_timer_iff 0 rfl (measuringCpu_rounds 4 0xfff0 0xbff0) hearly (by decide)
    (by decide) (by decide) hcount
  exact ⟨hcalibrate.mpr (by decide), honeshot.mpr (by decide)⟩

/-- 65536 counts in 0x5000 ticks are 3818182 Hz and come out as 3579546, a reload comes out as 0, and a
millisecond at 1193182 Hz is 193 counts short. -/
theorem lapic_timer_loses_the_remainder :
    ¬ CalibrateOk 0xffff800000000000 (fun _ => 0) false (measuringCpu 5 0xfff0 0xaff0) 0 (16 * 2 ^ 12) 0xfff0 0xaff0 ∧
    ¬ CalibrateOk 0xffff800000000000 (fun _ => 0) false (measuringCpu 4 0x100 0xc000) 0 (16 * 2 ^ 12) 0x100 0xc000 ∧
    ¬ OneshotOk 0xffff800000000000 false (measuringCpu 5 0xfff0 0xaff0) 0 1193182 0x20 1000 := by
  refine ⟨?_, ?_, ?_⟩
  · intro h
    have := (calibrateOk_iff 0 rfl (measuringCpu_rounds 5 0xfff0 0xaff0) (by decide) (by decide) (by decide)
      (by decide)).mp h
    exact absurd this (by decide)
  · intro h
    have := (calibrateOk_iff 0 rfl (measuringCpu_rounds 4 0x100 0xc000) (by decide) (by decide) (by decide)
      (by decide)).mp h
    exact absurd this (by decide)
  · intro h
    exact absurd ((oneshotOk_iff 0 0x20 (by decide)).mp h) (by decide)

end Cynix.Sys.LapicTimer
