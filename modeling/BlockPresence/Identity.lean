/-!
# The names of the rule

Under these the rule is known to its host, its registry and its users.
-/

namespace BlockPresence

def version : String := "0.1.0"

/-- The code in front of every report. -/
def ruleCode : String := "W9501"

/-- The name under which a host keeps the configuration of the rule. -/
def ruleName : String := "Performance/FastBlockGiven"

/-- What the key of every rule in a registry starts with. -/
def entryMark : String := "blockgiven."

/-- The key of the rule in a registry. -/
def ruleId : String := entryMark ++ ruleCode

/-- The description of the rule when the registry has none. -/
def ruleDescription : String := "Check block presence with the configured idiom."

end BlockPresence
