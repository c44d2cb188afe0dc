import Amalgam.World

/-!
The world before anything is described in it: the basic classes, and the library's own functions and modules.
-/

namespace Amalgam.World

/-- A parameter that takes any number of arguments. -/
def manyArgs (name : String) : Parameter := { name, kind := .varPositional }

/-- A parameter that takes any keywords. -/
def manyKeywords (name : String) : Parameter := { name, kind := .varKeyword }

/-- The basic classes, by their numbers. -/
def basicClasses : List Class :=
  [{ name := "object", qualname := "object", home := "builtins", order := [objectId] },
   { name := "ABC", qualname := "ABC", home := "abc", bases := [objectId], order := [abcId, objectId],
     hasAbstracts := true },
   { name := "Protocol", qualname := "Protocol", home := "typing", bases := [genericId],
     order := [protocolId, genericId, objectId], hasAbstracts := true, isProtocol := true },
   { name := "Generic", qualname := "Generic", home := "typing", bases := [objectId], order := [genericId, objectId] },
   { name := "ShortCircuit", qualname := "ShortCircuit", home := "class_mixer.advice", bases := [objectId],
     order := [shortCircuitId, objectId] },
   { name := "Replace", qualname := "Replace", home := "class_mixer.advice", bases := [objectId],
     order := [replaceId, objectId] },
   { name := "_empty", qualname := "_empty", home := "inspect", bases := [objectId], order := [absentId, objectId] }]

/-- A combination function of the library. -/
def combination (name : String) (how : Combination) : Function where
  name := name
  qualname := name
  home := "class_mixer.combinators"
  params := [manyArgs "results"]
  body := .combine how

/-- The functions of the library and the language, by their numbers. -/
def basicFunctions : List Function :=
  [combination "execute" .execute, combination "last" .last, combination "last_decision" .lastDecision,
   { name := "parameter_default", qualname := "parameter_default", home := "class_mixer.runtime",
     params := [{ name := "function" }, { name := "name" }], body := .defaultOf },
   { name := "isinstance", qualname := "isinstance", home := "builtins",
     params := [{ name := "obj", kind := .positionalOnly }, { name := "class_or_tuple", kind := .positionalOnly }],
     isReadable := false, body := .isOf },
   { name := "max", qualname := "max", home := "builtins", params := [manyArgs "args", manyKeywords "kwargs"],
     isReadable := false, body := .greatest },
   { name := "_proto_hook", qualname := "Protocol.__init_subclass__.<locals>._proto_hook", home := "typing",
     params := [{ name := "other" }], body := .nothing },
   { name := "_no_init_or_replace_init", qualname := "_no_init_or_replace_init", home := "typing",
     params := [{ name := "self" }, manyArgs "args", manyKeywords "kwargs"], body := .protocolInit },
   { name := "__init__", qualname := "object.__init__", home := "builtins", isReadable := false, body := .nothing }]

/-- The names of the library's own modules. -/
def combinationNames : Entries Value :=
  [("execute", .function executeId), ("last", .function lastId), ("last_decision", .function lastDecisionId)]

def verdictNames : Entries Value := [("ShortCircuit", .cls shortCircuitId), ("Replace", .cls replaceId)]

def readerNames : Entries Value := [("parameter_default", .function parameterDefaultId)]

/-- A module that holds others. -/
def package (name : String) (names : Entries Value) : Module := { name, isPackage := true, names }

/-- A module without modules below it. -/
def plainModule (name : String) (names : Entries Value) : Module := { name, names }

/-- The library's own modules. -/
def ownModules : List Module :=
  [package "class_mixer" (verdictNames ++ combinationNames), plainModule "class_mixer.__main__" [],
   plainModule "class_mixer.advice" verdictNames, package "class_mixer.cli" [],
   plainModule "class_mixer.cli.__main__" [], package "class_mixer.cli.handlers" [],
   plainModule "class_mixer.cli.handlers.introspect" [], plainModule "class_mixer.cli.handlers.meta" [],
   plainModule "class_mixer.cli.handlers.render" [], plainModule "class_mixer.combinators" combinationNames,
   package "class_mixer.compiler" [], plainModule "class_mixer.compiler.backend" [],
   package "class_mixer.compiler.backends" [], plainModule "class_mixer.compiler.backends.python" [],
   plainModule "class_mixer.compiler.ir" (verdictNames ++ readerNames), plainModule "class_mixer.config" [],
   package "class_mixer.core" [], plainModule "class_mixer.core.activation" [],
   plainModule "class_mixer.core.combinator" [], plainModule "class_mixer.core.dsl" [],
   plainModule "class_mixer.core.emitter" [], plainModule "class_mixer.core.fields" [],
   plainModule "class_mixer.core.inspector" [], plainModule "class_mixer.core.inventory" [],
   plainModule "class_mixer.core.provider" [], plainModule "class_mixer.core.schema" [],
   plainModule "class_mixer.core.synthesizer" [], plainModule "class_mixer.core.weaver" [],
   plainModule "class_mixer.enums" [], plainModule "class_mixer.errors" [],
   plainModule "class_mixer.runtime" readerNames, package "class_mixer.utils" [],
   plainModule "class_mixer.utils.console" []]

/-- The world before anything is described in it. -/
def fresh : World where
  classes := basicClasses.toArray
  functions := basicFunctions.toArray
  modules := ownModules.toArray
  loaded := ownModules.zipIdx.map fun p => (p.1.name, p.2)

end Amalgam.World
