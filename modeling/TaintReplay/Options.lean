import TaintReplay.Json

/-!
# Options

What a user can set: whether calls into the platform without a summary are
reported, after how many steps a replay is cut off, and which packages count as
the platform. Every option has a default, so a partial description is enough.
-/

namespace TaintReplay

/-- The options of an engine. -/
structure Options where
  /-- Report calls into the platform that no summary covers. -/
  reportMissing : Bool
  /-- The number of propagators after which a replay stops, if any. -/
  maxSteps : Option Nat
  /-- How the names of platform classes start. -/
  systemPackages : List String
deriving DecidableEq

namespace Options

/-- The packages of the platform, unless stated otherwise. -/
def platformPackages : List String :=
  ["android.", "androidx.", "com.android.", "com.google.android.", "dalvik.", "java.", "javax.",
    "junit.", "kotlin.", "org.apache.http.", "org.json.", "org.w3c.dom.", "org.xml.sax.", "sun."]

/-- Nothing is reported and nothing is cut off. -/
def default : Options := ⟨false, none, platformPackages⟩

instance : Inhabited Options := ⟨default⟩

/-- The default with reports. -/
def verbose : Options := { default with reportMissing := true }

/-- Cuts replays off after a number of steps. -/
def withMaxSteps (o : Options) (steps : Nat) : Options := { o with maxSteps := some steps }

/-- Whether a class belongs to the platform. -/
def isSystemClass (o : Options) (className : String) : Bool :=
  o.systemPackages.any fun package => package.toList.isPrefixOf className.toList

/-- Reads options; what is left out has its default. -/
def ofJson? (v : Json) : Option Options := do
  let ms ← v.members? ["report_missing_summaries", "max_steps", "system_packages"]
  let reportMissing ←
    Json.optional? ms "report_missing_summaries" default.reportMissing Json.toBool?
  let maxSteps ← Json.optional? ms "max_steps" default.maxSteps (Json.toOption? Json.toWord?)
  let systemPackages ←
    Json.optional? ms "system_packages" default.systemPackages (Json.toList? Json.toStr?)
  return ⟨reportMissing, maxSteps, systemPackages⟩

end Options

/-- The options of the log. -/
structure LogOptions where
  verbose : Bool
  debug : Bool
deriving DecidableEq

namespace LogOptions

/-- The quiet log. -/
def default : LogOptions := ⟨false, false⟩

instance : Inhabited LogOptions := ⟨default⟩

/-- Reads log options; what is left out has its default. -/
def ofJson? (v : Json) : Option LogOptions := do
  let ms ← v.members? ["verbose", "debug"]
  let verbose ← Json.optional? ms "verbose" default.verbose Json.toBool?
  let debug ← Json.optional? ms "debug" default.debug Json.toBool?
  return ⟨verbose, debug⟩

end LogOptions

end TaintReplay
