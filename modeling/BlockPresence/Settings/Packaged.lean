import BlockPresence.Settings.Registry

/-!
# The packaged registry

The registry that is used when a host brings none.
-/

namespace BlockPresence.Registry

/-- The messages for all switches. -/
def packagedMessages : Fields :=
  [("block_given_call->defined_yield_probe", .str "Check `defined?(yield)` instead of using `block_given?`."),
   ("block_given_call->block_truthy_ref", .str "Check `\x7bname\x7d`'s truthiness instead of using `block_given?`."),
   ("defined_yield_probe->block_given_call", .str "Check `block_given?` instead of using `defined?(yield)`."),
   ("defined_yield_probe->block_truthy_ref",
      .str "Check `\x7bname\x7d`'s truthiness instead of using `defined?(yield)`."),
   ("block_truthy_ref->block_given_call",
      .str "Check `block_given?` instead of checking the `\x7bname\x7d`'s truthiness."),
   ("block_truthy_ref->defined_yield_probe",
      .str "Check `defined?(yield)` instead of checking the `\x7bname\x7d`'s truthiness.")]

/-- The packaged registry. -/
def packaged : Registry :=
  ⟨[(defaultsKey, .map
      [("manual_instructions", .str <|
        "Rewrite the block-presence check at the reported location to the idiom " ++
        "selected by EnforcedStyle.")]),
    (ruleId, .map
      [("symbol", .str ruleName),
       ("short_description", .str <|
        "Use one consistent idiom to check whether a block was passed to the " ++
        "current method."),
       ("default_style", .str Style.fallback.name),
       ("supported_styles", .list (Style.all.map fun s => .str s.name)),
       ("messages", .map packagedMessages),
       ("manual_instructions", .str <|
        "Replace the flagged expression with the preferred idiom. Truthiness checks " ++
        "are only offered when the method declares an explicit `&block` parameter " ++
        "that is never reassigned; otherwise keep `block_given?` or " ++
        "`defined?(yield)`.")])]⟩

/-- Where a registry comes from. -/
inductive Source where
  /-- The registry that comes with the rule. -/
  | packaged
  /-- A file that does not exist. -/
  | missing (path : String)
  /-- What a file holds. -/
  | loaded (value : Value)

/-- Loads a registry. A file that does not exist counts as empty. -/
def Source.load : Source → Traced Registry
  | packaged => pure Registry.packaged
  | missing path => ⟨[.noRegistry path], .ok Registry.empty⟩
  | loaded value => pure (Registry.ofValue value)

end BlockPresence.Registry
