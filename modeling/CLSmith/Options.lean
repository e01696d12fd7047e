import Mathlib.Init
/-!
# Options

The switches of `CLOptions`, the combinations `Conflict` turns down, and
what `ResolveCGOptions` makes of them for the generator underneath.
-/

namespace CLSmith

/-- `CLOptions`, its switches, with their defaults; combinations of them that make no
program are turned down by `conflict`. -/
structure CLOptions where
  atomicReductions : Bool := false
  atomics : Bool := false
  barriers : Bool := false
  divergence : Bool := false
  emi : Bool := false
  fakeDivergence : Bool := false
  interThreadComm : Bool := false
  messagePassing : Bool := false
  trackDivergence : Bool := false
  vectors : Bool := false
deriving DecidableEq

/-- The switches of `CGOptions` that `ResolveCGOptions` sets from those. -/
structure CGOptions where
  arrays : Bool := true
  arrayOps : Bool := true
  gotos : Bool := true
  emptyBlocks : Bool := true
deriving DecidableEq

namespace CLOptions

/-- **`Conflict`**: the combinations turned down. The generator ends with a message
before anything is generated. -/
def conflict (o : CLOptions) : Bool :=
  if o.barriers && o.divergence && !o.trackDivergence then true
  else if o.vectors && o.trackDivergence then true
  else if o.divergence && o.fakeDivergence then true
  else if o.divergence && o.interThreadComm then true
  else false

/-- **`ResolveCGOptions`**: what the options of CLSmith switch off among those of the
generator below. -/
def resolveCGOptions (o : CLOptions) (cg : CGOptions) : CGOptions :=
  let cg := { cg with emptyBlocks := false }
  let cg := if o.trackDivergence then { cg with arrays := false, gotos := false } else cg
  let cg := if o.vectors then { cg with arrayOps := false } else cg
  if o.atomics then { cg with gotos := false } else cg

end CLOptions

end CLSmith
