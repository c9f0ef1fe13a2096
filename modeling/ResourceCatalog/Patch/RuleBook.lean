import ResourceCatalog.Patch.Standard

/-!
# The rules of a build

A rule book is filled before a build: with rules for every subject, rules for one subject, and whole
providers of both. A subject is corrected by the general rules and then by its own.
-/

namespace ResourceCatalog

/-- A named set of rules that belong together. -/
structure RuleProvider where
  name : String
  general : List Rule
  /-- Rules for single subjects. -/
  specific : List (String × Rule)

/-- The provider of the standard rules. -/
def Standard.provider : RuleProvider := ⟨"standard", Standard.rules, []⟩

/-- The rules of a build, each list in the order of registration. -/
structure RuleBook where
  general : List Rule
  specific : List (String × Rule)
  /-- The names of the providers installed. -/
  providers : List String

namespace RuleBook

def empty : RuleBook := ⟨[], [], []⟩

/-- Takes in all rules of a provider. -/
def install (book : RuleBook) (provider : RuleProvider) : RuleBook :=
  { general := book.general ++ provider.general
    specific := book.specific ++ provider.specific
    providers := book.providers ++ [provider.name] }

def registerGeneral (book : RuleBook) (rule : Rule) : RuleBook :=
  { book with general := book.general ++ [rule] }

def registerFor (book : RuleBook) (subject : String) (rule : Rule) : RuleBook :=
  { book with specific := book.specific ++ [(subject, rule)] }

/-- The rules of one subject as one rule. -/
def ruleFor (book : RuleBook) (subject : String) : Rule :=
  Rule.all (book.general ++
    (book.specific.filter fun entry => entry.1 == subject).map Prod.snd)

end RuleBook

end ResourceCatalog
