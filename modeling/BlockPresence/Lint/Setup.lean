import BlockPresence.Lint.Checker
import BlockPresence.Settings.Packaged

/-!
# Setting up

The registry, the configuration and the rule are put together once, before any file is read. What is wrong with them
shows here, in a fixed order, and not while nodes are looked at.
-/

namespace BlockPresence

/-- The services of a host, put together. -/
structure Setup where
  registry : Registry
  config : Config
  rule : Rule

namespace Setup

/-- Puts the services together, from a configuration section and a registry. -/
def build (fields : Fields) (source : Registry.Source) : Traced Setup := do
  let registry ← source.load
  let declared? ← Traced.ofExcept (registry.supportedStyles ruleCode)
  if let some declared := declared? then Traced.ofExcept (Style.checkDeclared (.list declared))
  let fallback := (registry.defaultStyle? ruleCode).getD Style.fallback.name
  let config ← Config.load fields (.str fallback)
  let templates ← Traced.ofExcept (registry.templates ruleCode)
  let instructions ← Traced.ofExcept (registry.manualInstructions ruleCode)
  let description := (registry.shortDescription? ruleCode).getD ruleDescription
  return { registry, config, rule := { config, templates, instructions, description } }

/-- The services that can be asked for. -/
inductive Service where
  | guidance
  | configuration
  | rule
deriving DecidableEq, Repr

namespace Service

def all : List Service := [guidance, configuration, rule]

def name : Service → String
  | guidance => "GuidanceService"
  | configuration => "ConfigurationLoader"
  | rule => "FastBlockGivenRule"

/-- The service of a name. -/
def ofName (s : String) : Except Fault Service :=
  (all.find? fun service => service.name == s).elim (.error (.unknownService s)) .ok

end Service

end Setup

/-- A question to the host for the section of one rule, and what follows from the answer. -/
structure SectionRequest (α : Type) where
  rule : String
  proceed : Fields → α

/-- Registers the checker with a host, unless the configuration switches it off. The host is asked once. -/
def Checker.register (source : Registry.Source) : SectionRequest (Traced (Option Checker)) where
  rule := ruleName
  proceed fields := do
    let setup ← Setup.build fields source
    if setup.config.enabled then return some ⟨setup.rule⟩
    else
      Traced.record .disabled
      return none

end BlockPresence
