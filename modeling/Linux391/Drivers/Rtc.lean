import Mathlib.Data.List.Range

/-!
The rate register of the real-time clock (`drivers/rtc.c`).

Register A keeps the divider in its low four bits. `rtc_read` waits for the next
interrupt and returns 0, and `rtc_close` returns 0, without touching the register.
-/

namespace Linux391

/-- `rtc_write` of a rate: the return value and register A. -/
def rtcWrite (regA : UInt8) (rate : Int) : Int × UInt8 :=
  let rtcRate := BitVec.ofInt 32 rate
  if 1024 < rate ∨ rate < 2 then (-1, regA)
  else if ¬ (rtcRate ≠ 0 ∧ rtcRate &&& (~~~rtcRate + 1) = rtcRate) then (-1, regA)
  else
    match (List.range 12).find? (rtcRate &&& 0xFFF).getLsbD with
    | some i => (0, (regA &&& 0xF0) ||| UInt8.ofNat (16 - i))
    | none => (0, regA &&& 0xF0)

/-- `rtc_open`: the default rate of 2 Hz. -/
def rtcOpen (regA : UInt8) : UInt8 := (rtcWrite regA 2).2

end Linux391
