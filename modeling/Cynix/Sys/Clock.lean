import Cynix.Sys.Devices

/-! # The nanosecond clock (`acpi/acpi.c`, `sys/hpet.c`)

`uacpi_kernel_get_nanoseconds_since_boot` multiplies the HPET counter by a
whole number of nanoseconds a tick, which it finds by two truncating divisions.
The clock keeps to the elapsed time exactly on the periods that are a whole
number of nanoseconds. -/
namespace Cynix.Sys.Clock
open Cynix.Base.Bytes Cynix.Base.Trace Cynix.Lib.Misc Cynix.Acpi.Tables Cynix.Sys.Devices

def uacpiKernelGetNanosecondsSinceBoot (mem : Mem) (hpet : Hpet) : Boot Nat := do
  let counter ← hpetReadCounter mem hpet.base
  pure (counter * (1000000000 / hpet.frequency) % 2 ^ 64)

/-- `general_capabilities >> 32`: the period of the counter in femtoseconds. -/
def periodAt (mem : Mem) (base : Nat) : Nat := read64 mem base >>> 32

/-- `main_counter_value`. -/
def counterAt (mem : Mem) (base : Nat) : Nat := read64 mem (base + 0xf0)

/-- The time is off by at most a tick and a nanosecond. -/
def Within (ns counter period : Nat) : Prop :=
  |(ns : ℚ) - counter * period / 10 ^ 6| ≤ (period : ℚ) / 10 ^ 6 + 1

/-- What the clock promises, whenever it is read with whatever counter value the elapsed time of
which has 64 bits. -/
structure ClockOk (hpet : Hpet) (period : Nat) : Prop where
  accurate : ∀ mem : Mem, counterAt mem hpet.base * period / 10 ^ 6 < 2 ^ 64 →
    ∃ ns, (uacpiKernelGetNanosecondsSinceBoot mem hpet).outcome = .returns ns ∧
      Within ns (counterAt mem hpet.base) period
  increasing : ∀ mem mem' : Mem, counterAt mem' hpet.base * period / 10 ^ 6 < 2 ^ 64 →
    counterAt mem hpet.base < counterAt mem' hpet.base →
    ∃ ns ns', (uacpiKernelGetNanosecondsSinceBoot mem hpet).outcome = .returns ns ∧
      (uacpiKernelGetNanosecondsSinceBoot mem' hpet).outcome = .returns ns' ∧ ns < ns'

variable {mem : Mem} {hpet : Hpet} {period counter ns : Nat}

theorem within_iff : Within ns counter period ↔
    10 ^ 6 * ns ≤ counter * period + period + 10 ^ 6 ∧ counter * period ≤ 10 ^ 6 * ns + period + 10 ^ 6 := by
  have hscale : ∀ x : ℚ, |x| ≤ (period : ℚ) / 10 ^ 6 + 1 ↔ |10 ^ 6 * x| ≤ (period : ℚ) + 10 ^ 6 := by
    intro x
    rw [abs_mul, abs_of_pos (show (0 : ℚ) < 10 ^ 6 by norm_num)]
    constructor <;> intro h <;> linarith
  unfold Within
  rw [hscale, mul_sub, mul_div_cancel₀ _ (show (10 ^ 6 : ℚ) ≠ 0 by norm_num), abs_le]
  constructor
  · rintro ⟨h1, h2⟩
    constructor
    · have : (10 ^ 6 * ns : ℚ) ≤ counter * period + period + 10 ^ 6 := by linarith
      exact_mod_cast this
    · have : (counter * period : ℚ) ≤ 10 ^ 6 * ns + period + 10 ^ 6 := by linarith
      exact_mod_cast this
  · rintro ⟨h1, h2⟩
    have h1' : (10 ^ 6 * ns : ℚ) ≤ counter * period + period + 10 ^ 6 := by exact_mod_cast h1
    have h2' : (counter * period : ℚ) ≤ 10 ^ 6 * ns + period + 10 ^ 6 := by exact_mod_cast h2
    constructor <;> linarith

/-- Reading the clock always returns. -/
theorem clock_returns : (uacpiKernelGetNanosecondsSinceBoot mem hpet).outcome =
    .returns (counterAt mem hpet.base * (1000000000 / hpet.frequency) % 2 ^ 64) := rfl

/-- `hpet_init` sets the frequency from the period. -/
theorem hpetInit_frequency {hhdm rsdp rsdt : Nat}
    (h : (hpetInit hhdm mem rsdp rsdt).outcome = .returns hpet) :
    hpet.frequency = 1000000000000000 / periodAt mem hpet.base := by
  unfold hpetInit at h
  obtain ⟨table, -, h⟩ := bind_returns h
  split at h
  · cases h
  · obtain ⟨address, -, h⟩ := bind_returns h
    obtain ⟨-, -, h⟩ := bind_returns h
    obtain ⟨capabilities, hcap, h⟩ := bind_returns h
    simp only at h
    split at h
    · cases h
    · obtain ⟨-, -, h⟩ := bind_returns h
      obtain ⟨configuration, -, h⟩ := bind_returns h
      obtain ⟨-, -, h⟩ := bind_returns h
      obtain rfl := Outcome.returns.inj h
      obtain rfl := Outcome.returns.inj hcap
      rfl

/-! ## The periods -/

/-- The nanoseconds a tick that the clock works with. -/
def nanosPerTick (period : Nat) : Nat := 1000000000 / (1000000000000000 / period)

/-- A whole number of nanoseconds survives both divisions. -/
theorem nanosPerTick_whole {m : Nat} (h1 : 1 ≤ m) (h2 : m ≤ 100) : nanosPerTick (10 ^ 6 * m) = m := by
  unfold nanosPerTick
  interval_cases m <;> rfl

theorem nanosPerTick_le (h1 : 1 ≤ period) (h2 : period ≤ 100000000) : nanosPerTick period ≤ 100 := by
  have hfreq : 10000000 ≤ 1000000000000000 / period := by
    rw [Nat.le_div_iff_mul_le h1]
    omega
  exact (Nat.div_le_div_left hfreq (by decide)).trans (by decide)

/-- A memory in which the counter has a given value. -/
theorem exists_counter (base : Nat) {c : Nat} (hc : c < 2 ^ 64) : ∃ mem : Mem, counterAt mem base = c :=
  ⟨write64 (fun _ => 0) (base + 0xf0) c, read64_write64_of_lt hc⟩

theorem clockOk_of_whole {m : Nat} (h1 : 1 ≤ m) (h2 : m ≤ 100)
    (hf : hpet.frequency = 1000000000000000 / (10 ^ 6 * m)) : ClockOk hpet (10 ^ 6 * m) := by
  have htick : 1000000000 / hpet.frequency = m := by
    rw [hf]
    exact nanosPerTick_whole h1 h2
  have hfit : ∀ c, c * (10 ^ 6 * m) / 10 ^ 6 < 2 ^ 64 → c * m < 2 ^ 64 := by
    intro c hc
    rwa [show c * (10 ^ 6 * m) = c * m * 10 ^ 6 by ring, Nat.mul_div_cancel _ (by decide)] at hc
  refine ⟨?_, ?_⟩
  · intro mem hc
    refine ⟨_, clock_returns, ?_⟩
    rw [htick, Nat.mod_eq_of_lt (hfit _ hc), within_iff]
    rw [show 10 ^ 6 * (counterAt mem hpet.base * m) = counterAt mem hpet.base * (10 ^ 6 * m) by ring]
    omega
  · intro mem mem' hc hlt
    have hmul : counterAt mem hpet.base * m < counterAt mem' hpet.base * m := Nat.mul_lt_mul_of_pos_right hlt h1
    have hfit' := hfit _ hc
    refine ⟨_, _, clock_returns, clock_returns, ?_⟩
    rw [htick, Nat.mod_eq_of_lt hfit', Nat.mod_eq_of_lt (hmul.trans hfit')]
    exact hmul

/-- An accurate clock works with exactly the period: after `period + 10 ^ 6 + 1` ticks any other
rate is off by more than a tick and a nanosecond. -/
theorem rate_exact (h1 : 1 ≤ period) (h2 : period ≤ 100000000)
    (hf : hpet.frequency = 1000000000000000 / period) (hok : ClockOk hpet period) :
    10 ^ 6 * nanosPerTick period = period := by
  have hk := nanosPerTick_le h1 h2
  obtain ⟨mem, hc⟩ := exists_counter hpet.base (show period + 10 ^ 6 + 1 < 2 ^ 64 by omega)
  have hfits : (period + 10 ^ 6 + 1) * period / 10 ^ 6 < 2 ^ 64 := by
    have : (period + 10 ^ 6 + 1) * period ≤ (100000000 + 10 ^ 6 + 1) * 100000000 :=
      Nat.mul_le_mul (by omega) h2
    omega
  have hlt : (period + 10 ^ 6 + 1) * nanosPerTick period < 2 ^ 64 := by
    have : (period + 10 ^ 6 + 1) * nanosPerTick period ≤ (100000000 + 10 ^ 6 + 1) * 100 :=
      Nat.mul_le_mul (by omega) hk
    omega
  obtain ⟨ns, hns, hw⟩ := hok.accurate mem (by rwa [hc])
  obtain rfl := Outcome.returns.inj (clock_returns.symm.trans hns)
  rw [hc, hf, ← nanosPerTick, Nat.mod_eq_of_lt hlt, within_iff] at hw
  generalize hP : period + 10 ^ 6 = t at *
  have hleft : 10 ^ 6 * ((t + 1) * nanosPerTick period) = (t + 1) * (10 ^ 6 * nanosPerTick period) := by ring
  rw [hleft] at hw
  generalize 10 ^ 6 * nanosPerTick period = q at *
  rcases Nat.lt_trichotomy q period with hq | hq | hq
  · have := Nat.mul_le_mul_left (t + 1) (Nat.succ_le_of_lt hq)
    rw [Nat.mul_succ] at this
    omega
  · exact hq
  · have := Nat.mul_le_mul_left (t + 1) (Nat.succ_le_of_lt hq)
    rw [Nat.mul_succ] at this
    omega

/-- **The clock keeps its promise exactly on the periods that are a whole number of nanoseconds.** -/
theorem clock_ok_iff (hhdm : Nat) (mem : Mem) (rsdp rsdt : Nat) (hpet : Hpet)
    (h : (hpetInit hhdm mem rsdp rsdt).outcome = .returns hpet)
    (h1 : 1 ≤ periodAt mem hpet.base) (h2 : periodAt mem hpet.base ≤ 100000000) :
    ClockOk hpet (periodAt mem hpet.base) ↔ 10 ^ 6 ∣ periodAt mem hpet.base := by
  have hf := hpetInit_frequency h
  generalize periodAt mem hpet.base = period at *
  constructor
  · intro hok
    exact Dvd.intro _ (rate_exact h1 h2 hf hok)
  · rintro ⟨m, rfl⟩
    exact clockOk_of_whole (by omega) (by omega) hf

/-- An RSDT with one table, that of an HPET with this period. -/
def hpetTables (period : Nat) : Mem :=
  let m := write64 (fun _ => 0) 0xffff8000000e1000 (40 * 2 ^ 32)
  let m := write64 m 0xffff8000000e1024 0xe3000
  let m := write64 m 0xffff8000000e3000 (0x54455048 + 56 * 2 ^ 32)
  let m := write64 m 0xffff8000000e302c 0xfed00000
  write64 m 0xffff8000fed00000 (period * 2 ^ 32)

/-- A counter of 100 MHz. -/
theorem clock_ok_iff_ten_ns : ∃ hpet,
    (hpetInit 0xffff800000000000 (hpetTables 10000000) 0xffff8000000e0000 0xffff8000000e1000).outcome =
      .returns hpet ∧ ClockOk hpet 10000000 := by
  have hinit : (hpetInit 0xffff800000000000 (hpetTables 10000000) 0xffff8000000e0000
      0xffff8000000e1000).outcome = .returns ⟨0xffff8000fed00000, 100000000⟩ := by decide +kernel
  have hperiod : periodAt (hpetTables 10000000) 0xffff8000fed00000 = 10000000 := by decide +kernel
  refine ⟨_, hinit, ?_⟩
  have hiff := clock_ok_iff _ _ _ _ _ hinit (by rw [hperiod]; decide) (by rw [hperiod]; decide)
  rw [hperiod] at hiff
  exact hiff.mpr (by decide)

/-- The usual counter of 14.318 MHz: 69 instead of 69.84 nanoseconds a tick. -/
theorem clock_drifts : ∃ hpet,
    (hpetInit 0xffff800000000000 (hpetTables 69841279) 0xffff8000000e0000 0xffff8000000e1000).outcome =
      .returns hpet ∧ ¬ ClockOk hpet 69841279 := by
  have hinit : (hpetInit 0xffff800000000000 (hpetTables 69841279) 0xffff8000000e0000
      0xffff8000000e1000).outcome = .returns ⟨0xffff8000fed00000, 14318179⟩ := by decide +kernel
  refine ⟨_, hinit, ?_⟩
  intro hok
  have hexact := rate_exact (by decide) (by decide) (by decide) hok
  revert hexact
  decide

end Cynix.Sys.Clock
