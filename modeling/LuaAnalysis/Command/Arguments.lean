/-!
The command line. The words are read from left to right, and the first thing that is wrong, or that
asks for nothing more than a text, ends the reading.
-/

namespace LuaAnalysis.Command

/-- What a check is told. -/
structure CheckOptions where
  paths : List String := []
  /-- The file with the settings. -/
  config? : Option String := none
  logFile? : Option String := none
  verbose : Bool := false
deriving DecidableEq, Repr, Inhabited

inductive HelpTopic where
  | program
  | check
  | help
deriving DecidableEq, Repr, Inhabited

inductive Request where
  | version
  | help (topic : HelpTopic)
  | check (options : CheckOptions)
deriving DecidableEq, Repr, Inhabited

inductive UsageError where
  | noCommand
  | unknownCommand (word : String)
  | unknownOption (word : String)
  | noValue (option : String)
  | unneededValue (option : String)
  | repeated (option : String)
  | noPaths
deriving DecidableEq, Repr, Inhabited

def UsageError.message : UsageError → String
  | .noCommand => "a command is required"
  | .unknownCommand word => "unrecognized subcommand '" ++ word ++ "'"
  | .unknownOption word => "unexpected argument '" ++ word ++ "' found"
  | .noValue option => "a value is required for '" ++ option ++ "' but none was supplied"
  | .unneededValue option => "unexpected value for '" ++ option ++ "' found; no more were expected"
  | .repeated option => "the argument '" ++ option ++ "' cannot be used multiple times"
  | .noPaths => "the following required arguments were not provided: <PATHS>..."

/-- A word of the command line by its form. -/
inductive Word where
  /-- All that follows is plain. -/
  | divider
  | long (name : String) (value? : Option String)
  | short (letters : List Char)
  | plain (text : String)
deriving DecidableEq, Repr, Inhabited

def Word.ofText (text : String) : Word :=
  match text.toList with
  | ['-', '-'] => .divider
  | '-' :: '-' :: rest =>
    match rest.span (· != '=') with
    | (name, _ :: value) => .long (String.ofList name) (some (String.ofList value))
    | (name, []) => .long (String.ofList name) none
  | '-' :: c :: rest => .short (c :: rest)
  | _ => .plain text

/-- The options that take a value. -/
inductive FileOption where
  | config
  | logFile
deriving DecidableEq, Repr, Inhabited

def FileOption.name : FileOption → String
  | .config => "config"
  | .logFile => "log-file"

def FileOption.ofName? (name : String) : Option FileOption :=
  [FileOption.config, .logFile].find? fun f => f.name == name

def dashed (name : String) : String := "--" ++ name

namespace CheckOptions

def addPath (o : CheckOptions) (path : String) : Except UsageError CheckOptions :=
  if path.isEmpty then .error (.noValue "<PATHS>...") else .ok { o with paths := o.paths ++ [path] }

def setVerbose (o : CheckOptions) : Except UsageError CheckOptions :=
  if o.verbose then .error (.repeated "--verbose") else .ok { o with verbose := true }

def value? (o : CheckOptions) : FileOption → Option String
  | .config => o.config?
  | .logFile => o.logFile?

def withValue (o : CheckOptions) (value : String) : FileOption → CheckOptions
  | .config => { o with config? := some value }
  | .logFile => { o with logFile? := some value }

def setValue (o : CheckOptions) (option : FileOption) (value : String) :
    Except UsageError CheckOptions :=
  if value.isEmpty then .error (.noValue (dashed option.name))
  else if (o.value? option).isSome then .error (.repeated (dashed option.name))
  else .ok (o.withValue value option)

def finish (o : CheckOptions) : Except UsageError Request :=
  if o.paths.isEmpty then .error .noPaths else .ok (.check o)

def addLetters (o : CheckOptions) : List Char → Except UsageError (CheckOptions × Bool)
  | [] => .ok (o, false)
  | 'v' :: rest => do (← o.setVerbose).addLetters rest
  | 'h' :: _ => .ok (o, true)
  | c :: _ => .error (.unknownOption (String.ofList ['-', c]))

def addWords (o : CheckOptions) : List String → Except UsageError Request
  | [] => o.finish
  | text :: rest =>
    match Word.ofText text with
    | .divider => do (← rest.foldlM addPath o).finish
    | .plain path => do (← o.addPath path).addWords rest
    | .short letters => do
      let (o, help) ← o.addLetters letters
      if help then pure (.help .check) else o.addWords rest
    | .long name value? =>
      match FileOption.ofName? name, value? with
      | some option, some value => do (← o.setValue option value).addWords rest
      | some option, none =>
        match rest with
        | [] => .error (.noValue (dashed name))
        | next :: rest =>
          match Word.ofText next with
          | .plain value => do (← o.setValue option value).addWords rest
          | _ => .error (.noValue (dashed name))
      | none, value? =>
        if name == "verbose" || name == "help" then
          if value?.isSome then .error (.unneededValue (dashed name))
          else if name == "help" then .ok (.help .check)
          else do (← o.setVerbose).addWords rest
        else .error (.unknownOption (dashed name))

end CheckOptions

namespace Request

def ofHelpWords : List String → Except UsageError Request
  | [] => .ok (.help .program)
  | ["check"] => .ok (.help .check)
  | ["help"] => .ok (.help .help)
  | "check" :: word :: _ | "help" :: word :: _ | word :: _ => .error (.unknownCommand word)

def ofArgs : List String → Except UsageError Request
  | [] => .error .noCommand
  | "check" :: rest => CheckOptions.addWords {} rest
  | "help" :: rest => ofHelpWords rest
  | text :: _ =>
    match Word.ofText text with
    | .long "version" none | .short ('V' :: _) => .ok .version
    | .long "help" none | .short ('h' :: _) => .ok (.help .program)
    | .long "version" (some _) | .long "help" (some _) => .error (.unneededValue text)
    | .plain _ => .error (.unknownCommand text)
    | _ => .error (.unknownOption text)

end Request

end LuaAnalysis.Command
