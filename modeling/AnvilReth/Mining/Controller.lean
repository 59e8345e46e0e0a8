import AnvilReth.Words.Types

/-! # The mining mode

The mode the controller publishes, and what the two requests that change it
write.
-/

namespace AnvilReth

/-- How blocks come about. An interval is counted in seconds. -/
inductive MiningMode where
  | automine
  | manual
  | interval (secs : U64)
  deriving DecidableEq

namespace MiningMode

def isAutomine (mode : MiningMode) : Bool := mode = .automine

/-- The mode `set_automine` writes over the one it has read, if it writes at all. -/
def setAutomine : MiningMode → Bool → Option MiningMode
  | .automine, true => none
  | .automine, false => some .manual
  | _, true => some .automine
  | _, false => none

/-- The mode `set_interval_mining` writes. -/
def setIntervalMining (intervalSecs : U64) : MiningMode :=
  if intervalSecs = 0 then .manual else .interval intervalSecs

/-- Only a request to automine turns automining on. -/
theorem enabled_of_setAutomine {mode : MiningMode} {enabled : Bool}
    (h : setAutomine mode enabled = some .automine) : enabled = true := by
  cases mode <;> cases enabled <;> simp_all [setAutomine]

theorem setIntervalMining_ne_automine (intervalSecs : U64) :
    setIntervalMining intervalSecs ≠ .automine := by
  unfold setIntervalMining
  split <;> nofun

end MiningMode

end AnvilReth
