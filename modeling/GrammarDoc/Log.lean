namespace GrammarDoc

/-- How much a log record matters. -/
inductive LogLevel where
  | debug
  | info
  | warning
  | error
  | critical
deriving Repr, DecidableEq, Inhabited

namespace LogLevel

def word : LogLevel → String
  | debug => "DEBUG"
  | info => "INFO"
  | warning => "WARNING"
  | error => "ERROR"
  | critical => "CRITICAL"

def rank : LogLevel → Nat
  | debug => 0
  | info => 1
  | warning => 2
  | error => 3
  | critical => 4

def all : List LogLevel :=
  [debug, info, warning, error, critical]

/-- The level with a given name. -/
def ofWord? (s : String) : Option LogLevel :=
  all.find? fun level => level.word == s

end LogLevel

structure LogRecord where
  level : LogLevel
  message : String
deriving Repr, DecidableEq

/-- What a step reports, and how it ends. -/
structure Logged (ε α : Type) where
  log : List LogRecord
  result : Except ε α

namespace Logged

variable {ε ε' α β : Type}

/-- A failing step stops the rest; what was reported before stays. -/
def andThen (x : Logged ε α) (f : α → Logged ε β) : Logged ε β :=
  match x.result with
  | .error e => ⟨x.log, .error e⟩
  | .ok a => ⟨x.log ++ (f a).log, (f a).result⟩

instance : Monad (Logged ε) where
  pure a := ⟨[], .ok a⟩
  bind := andThen

def fail (e : ε) : Logged ε α :=
  ⟨[], .error e⟩

def note (level : LogLevel) (message : String) : Logged ε Unit :=
  ⟨[⟨level, message⟩], .ok ()⟩

def ofExcept (r : Except ε α) : Logged ε α :=
  ⟨[], r⟩

def mapError (f : ε → ε') (x : Logged ε α) : Logged ε' α :=
  ⟨x.log, x.result.mapError f⟩

end Logged
end GrammarDoc
