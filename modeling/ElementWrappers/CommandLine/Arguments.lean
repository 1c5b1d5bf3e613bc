/-!
# Arguments

Options and flags, long or short. A value follows its option or is attached to
it; short ones may be written in one cluster. The value of an option counts only
when the next option or flag begins, so faults come in that order.
-/

namespace ElementWrappers.CommandLine

/-- Why arguments are not accepted. The last two ask for something else. -/
inductive ArgumentFault where
  | unknown
  | missingRequired
  /-- An option without its value. -/
  | missingValue
  | repeated
  /-- A flag with a value. -/
  | unexpectedValue
  | helpAsked
  | versionAsked
  deriving DecidableEq, Repr

/-- What the arguments say. -/
structure Options where
  components : String
  config : String
  root : Option String
  dryRun : Bool
  verbose : Bool
  deriving DecidableEq, Repr

/-- Options with a value. -/
inductive Setting where
  | components
  | config
  | root
  deriving DecidableEq, Repr

inductive Flag where
  | dryRun
  | verbose
  | help
  | version
  deriving DecidableEq, Repr

/-- What a name on the command line stands for. -/
inductive Meaning where
  | setting (s : Setting)
  | flag (f : Flag)
  deriving DecidableEq, Repr

namespace Meaning

def ofLong? : String → Option Meaning
  | "components" => some (.setting .components)
  | "config" => some (.setting .config)
  | "root" => some (.setting .root)
  | "dry-run" => some (.flag .dryRun)
  | "verbose" => some (.flag .verbose)
  | "help" => some (.flag .help)
  | "version" => some (.flag .version)
  | _ => none

def ofShort? : Char → Option Meaning
  | 'c' => some (.setting .components)
  | 'p' => some (.setting .config)
  | 'v' => some (.flag .verbose)
  | 'h' => some (.flag .help)
  | 'V' => some (.flag .version)
  | _ => none

end Meaning

/-! ## Single arguments -/

/-- The form of one argument. -/
inductive Argument where
  /-- The mark after which there are no options. -/
  | stop
  | long (name : String) (attached : Option String)
  | cluster (letters : List Char)
  | plain (text : String)
  deriving DecidableEq, Repr

/-- The text after the first equals sign. -/
def attachedTo (text : List Char) : Option String :=
  match text.dropWhile (· != '=') with
  | [] => none
  | _ :: value => some (String.ofList value)

def Argument.ofText (text : String) : Argument :=
  match text.toList with
  | ['-', '-'] => .stop
  | '-' :: '-' :: rest => .long (String.ofList (rest.takeWhile (· != '='))) (attachedTo rest)
  | '-' :: c :: rest => .cluster (c :: rest)
  | _ => .plain text

/-! ## Reading all of them -/

/-- What has been read. The last option waits, with its value if it has come. -/
structure Reading where
  values : List (Setting × String) := []
  flags : List Flag := []
  waiting : Option (Setting × Option String) := none
  deriving DecidableEq, Repr

namespace Reading

def value? (r : Reading) (s : Setting) : Option String := r.values.lookup s

/-- Sets a value once. -/
def set (r : Reading) (s : Setting) (value : String) : Except ArgumentFault Reading :=
  if (r.value? s).isSome then .error .repeated
  else .ok { r with values := r.values ++ [(s, value)] }

/-- Makes the option that waits count. -/
def settle (r : Reading) : Except ArgumentFault Reading :=
  match r.waiting with
  | none => .ok r
  | some (_, none) => .error .missingValue
  | some (s, some value) => set { r with waiting := none } s value

/-- An option with its value attached. -/
def setAttached (r : Reading) (s : Setting) (value : String) : Except ArgumentFault Reading :=
  match r.settle with
  | .error e => .error e
  | .ok r => r.set s value

/-- An option whose value comes next. -/
def await (r : Reading) (s : Setting) : Except ArgumentFault Reading :=
  match r.settle with
  | .error e => .error e
  | .ok r => .ok { r with waiting := some (s, none) }

def raise (r : Reading) (f : Flag) : Except ArgumentFault Reading :=
  match r.settle with
  | .error e => .error e
  | .ok r =>
    match f with
    | .help => .error .helpAsked
    | .version => .error .versionAsked
    | f => if r.flags.contains f then .error .repeated else .ok { r with flags := r.flags ++ [f] }

def readLong (r : Reading) (name : String) (attached : Option String) :
    Except ArgumentFault Reading :=
  match Meaning.ofLong? name, attached with
  | none, _ => .error .unknown
  | some (.setting s), some value => r.setAttached s value
  | some (.setting s), none => r.await s
  | some (.flag _), some _ => .error .unexpectedValue
  | some (.flag f), none => r.raise f

/-- The letters of a cluster. An option takes what is left of it, an equals sign
apart. -/
def readCluster (r : Reading) : List Char → Except ArgumentFault Reading
  | [] => .ok r
  | c :: rest =>
    match Meaning.ofShort? c with
    | none => .error .unknown
    | some (.flag f) =>
      match r.raise f with
      | .error e => .error e
      | .ok r => readCluster r rest
    | some (.setting s) =>
      match rest with
      | [] => r.await s
      | '=' :: value => r.setAttached s (String.ofList value)
      | value => r.setAttached s (String.ofList value)

/-- A text that is no option has to be the value of the one before it. -/
def readPlain (r : Reading) (text : String) : Except ArgumentFault Reading :=
  match r.waiting with
  | some (s, none) => .ok { r with waiting := some (s, some text) }
  | _ => .error .unknown

/-- Reads one argument. Nothing may follow the mark that ends the options. -/
def read (r : Reading) (text : String) (isLast : Bool) : Except ArgumentFault Reading :=
  match Argument.ofText text with
  | .stop => if isLast then .ok r else .error .unknown
  | .long name attached => r.readLong name attached
  | .cluster letters => r.readCluster letters
  | .plain text => r.readPlain text

def readAll (r : Reading) : List String → Except ArgumentFault Reading
  | [] => r.settle
  | text :: rest =>
    match r.read text rest.isEmpty with
    | .error e => .error e
    | .ok r => readAll r rest

end Reading

/-- The options that the arguments of the command give. -/
def Options.ofArguments (arguments : List String) : Except ArgumentFault Options :=
  match Reading.readAll {} arguments with
  | .error e => .error e
  | .ok r =>
    match r.value? .components, r.value? .config with
    | some components, some config =>
      .ok ⟨components, config, r.value? .root, r.flags.contains .dryRun, r.flags.contains .verbose⟩
    | _, _ => .error .missingRequired

end ElementWrappers.CommandLine
