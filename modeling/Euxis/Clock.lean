import Euxis.Bytes

/-!
# Wall-clock time as text

`gmtime_r` and `std::put_time` with the format `%Y-%m-%dT%H:%M:%SZ`. A `time_t` counts
seconds from 1970-01-01, and may be negative.
-/

namespace Euxis.Clock

structure Tm where
  year : Int
  mon : Int
  mday : Int
  hour : Int
  min : Int
  sec : Int
  deriving DecidableEq, Repr

/-- The calendar day of a count of days from 1970-01-01, by the 400-year cycle that starts in
March. -/
def civilFromDays (days : Int) : Int × Int × Int :=
  let z := days + 719468
  let era := z / 146097
  let doe := z % 146097
  let yoe := (doe - doe / 1460 + doe / 36524 - doe / 146096) / 365
  let doy := doe - (365 * yoe + yoe / 4 - yoe / 100)
  let mp := (5 * doy + 2) / 153
  let d := doy - (153 * mp + 2) / 5 + 1
  let m := if mp < 10 then mp + 3 else mp - 9
  (yoe + era * 400 + (if m ≤ 2 then 1 else 0), m, d)

def gmtime (t : Int) : Tm :=
  let (y, m, d) := civilFromDays (t / 86400)
  let s := t % 86400
  { year := y, mon := m, mday := d, hour := s / 3600, min := s % 3600 / 60, sec := s % 60 }

def pad2 (n : Int) : Bytes := if n < 10 then ch '0' :: Bytes.decimalInt n else Bytes.decimalInt n

def isoDate (tm : Tm) : Bytes :=
  Bytes.decimalInt tm.year ++ [ch '-'] ++ pad2 tm.mon ++ [ch '-'] ++ pad2 tm.mday ++ [ch 'T'] ++
    pad2 tm.hour

/-- `%Y-%m-%dT%H:%M:%SZ` -/
def isoTime (t : Int) : Bytes :=
  let tm := gmtime t
  isoDate tm ++ ch ':' :: (pad2 tm.min ++ ch ':' :: (pad2 tm.sec ++ [ch 'Z']))

theorem colon_mem_isoTime (t : Int) : ch ':' ∈ isoTime t := by
  simp [isoTime]

theorem pad2_ascii (n : Int) : ∀ b ∈ pad2 n, b.toNat < 128 := by
  intro b hb
  have hd : ∀ b ∈ Bytes.decimalInt n, b.toNat < 128 := by
    intro c hc
    by_contra hlt
    exact Bytes.decimalInt_not_mem n c (by omega) hc
  unfold pad2 at hb
  split at hb
  · rcases List.mem_cons.mp hb with rfl | hb
    · decide
    · exact hd b hb
  · exact hd b hb

theorem isoTime_ascii (t : Int) : ∀ b ∈ isoTime t, b.toNat < 128 := by
  intro b hb
  have hyear : ∀ b ∈ Bytes.decimalInt (gmtime t).year, b.toNat < 128 := by
    intro c hc
    by_contra hlt
    exact Bytes.decimalInt_not_mem _ c (by omega) hc
  simp only [isoTime, isoDate, List.mem_append, List.mem_cons, List.not_mem_nil, or_false] at hb
  rcases hb with ((((((hb | rfl) | hb) | rfl) | hb) | rfl) | hb) | rfl | hb | rfl | hb | rfl
  · exact hyear b hb
  all_goals first
    | exact pad2_ascii _ b hb
    | decide

example : isoTime 0 = ascii "1970-01-01T00:00:00Z" := by decide
example : isoTime 951827696 = ascii "2000-02-29T12:34:56Z" := by decide

end Euxis.Clock
