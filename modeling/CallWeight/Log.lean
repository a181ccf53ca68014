import CallWeight.Text.Basic

/-! # Log lines

What a run tells about its progress. Lines are kept in order; the command line decides by their
level which of them are shown.
-/

namespace CallWeight

inductive LogLevel where
  | debug
  | info
  | warning
  | error
  deriving Repr, DecidableEq

namespace LogLevel

def rank : LogLevel → Nat
  | .debug => 0
  | .info => 1
  | .warning => 2
  | .error => 3

/-- The level's name in a field of five characters. -/
def tag : LogLevel → String
  | .debug => "DEBUG"
  | .info => "INFO "
  | .warning => "WARNI"
  | .error => "ERROR"

end LogLevel

/-- The part of the program that writes a line. -/
inductive LogChannel where
  | commandLine
  | config
  | program
  | loops
  | callGraph
  | dispatch
  | counting
  | store
  | propagation
  | analysis
  deriving Repr, DecidableEq

def LogChannel.name : LogChannel → String
  | .commandLine => "hotproc"
  | .config => "hotproc.config"
  | .program => "hotproc.model"
  | .loops => "hotproc.loops"
  | .callGraph => "hotproc.callgraph"
  | .dispatch => "hotproc.augment"
  | .counting => "hotproc.features"
  | .store => "hotproc.store"
  | .propagation => "hotproc.propagation"
  | .analysis => "hotproc.analyzer"

structure LogLine where
  level : LogLevel
  channel : LogChannel
  message : Text
  deriving Repr, DecidableEq

/-- The line as it is shown, behind a time of day. -/
def LogLine.render (time : String) (line : LogLine) : Text :=
  s!"{time} [{line.level.tag}] {line.channel.name}: " ++ line.message

/-- Log lines, first one first. -/
abbrev Log := Array LogLine

namespace Log

def debug (channel : LogChannel) (message : Text) (log : Log) : Log :=
  log.push ⟨.debug, channel, message⟩

def info (channel : LogChannel) (message : Text) (log : Log) : Log :=
  log.push ⟨.info, channel, message⟩

def warning (channel : LogChannel) (message : Text) (log : Log) : Log :=
  log.push ⟨.warning, channel, message⟩

def error (channel : LogChannel) (message : Text) (log : Log) : Log :=
  log.push ⟨.error, channel, message⟩

/-- The lines of at least the given level. -/
def atLeast (level : LogLevel) (log : Log) : List LogLine :=
  log.toList.filter fun line => level.rank ≤ line.level.rank

end Log

end CallWeight
