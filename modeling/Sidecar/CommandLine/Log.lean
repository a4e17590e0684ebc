import Sidecar.Config
import Sidecar.Generation

/-! The log of the command: which events are told and in what words. -/

namespace Sidecar.CommandLine

inductive Level where
  | warn
  | info
  | debug
  deriving DecidableEq, Repr

def Level.name : Level → String
  | .warn => "WARN"
  | .info => "INFO"
  | .debug => "DEBUG"

/-- A line of the log: how grave it is, which part of the program tells it, and what it says. -/
structure Entry where
  level : Level
  origin : String
  message : String
  deriving DecidableEq, Repr

def Entry.ofEvent : Event → Entry
  | .resolving patterns root =>
    ⟨.info, "contentmeta_core::pipeline",
      "Resolving " ++ toString patterns ++ " pattern(s) under " ++ root.text⟩
  | .matchedNothing pattern root =>
    ⟨.debug, "contentmeta_core::fileset",
      "Pattern '" ++ pattern ++ "' matched nothing under " ++ root.text⟩
  | .excluding relPath pattern =>
    ⟨.debug, "contentmeta_core::fileset",
      "Excluding " ++ relPath ++ " (matches '" ++ pattern ++ "')"⟩
  | .matched relPath => ⟨.debug, "contentmeta_core::fileset", "Matched " ++ relPath⟩
  | .resolved files =>
    ⟨.info, "contentmeta_core::pipeline", "Resolved " ++ toString files ++ " file(s)"⟩
  | .idShared c =>
    ⟨.warn, "contentmeta_core::pipeline",
      "Content id " ++ c.contentId ++ " is shared by " ++ toString c.paths.length ++ " files: " ++
        ", ".intercalate c.paths⟩
  | .skipped relPath =>
    ⟨.debug, "contentmeta_core::pipeline", "Dry run: skipping sidecar for " ++ relPath⟩
  | .wrote sidecar => ⟨.info, "contentmeta_core::pipeline", "Wrote " ++ sidecar.text⟩

def Entry.ofConfigProblem : Config.Problem → Entry
  | .unreadable cause =>
    ⟨.warn, "contentmeta::config",
      "Failed to read " ++ Config.fileName ++ ": " ++ cause.message⟩
  | .notText =>
    ⟨.warn, "contentmeta::config",
      "Failed to read " ++ Config.fileName ++ ": stream did not contain valid UTF-8"⟩
  | .unparsable => ⟨.warn, "contentmeta::config", "Failed to parse " ++ Config.fileName ++ ":"⟩

def Entry.processed (files : Nat) : Entry :=
  ⟨.info, "contentmeta::commands::generate", "Processed " ++ toString files ++ " file(s)"⟩

/-- Characters that a terminal would act upon are spelled out. -/
def spelledOut (c : Char) : String :=
  let code := String.ofList (Nat.toDigits 16 c.toNat)
  if c = '\x07' ∨ c = '\x08' then "\\x0" ++ code
  else if c = '\x0c' then "\\x0c"
  else if c = '\x1b' ∨ c = '\x7f' then "\\x" ++ code
  else if 0x80 ≤ c.toNat ∧ c.toNat ≤ 0x9f then "\\u\x7b" ++ code ++ "\x7d"
  else c.toString

def Entry.text (e : Entry) : String :=
  e.level.name ++ " " ++ e.origin ++ ": " ++ String.join (e.message.toList.map spelledOut)

/-- Warnings are told unless all is to be quiet, the rest only on demand. -/
def Entry.isTold (verbose quiet : Bool) (e : Entry) : Bool :=
  !quiet && (verbose || e.level == .warn)

end Sidecar.CommandLine
