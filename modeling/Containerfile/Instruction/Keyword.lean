import Containerfile.Token

/-!
# The instructions by keyword

The keyword decides how the rest of an instruction is read.  Keywords are the same in any case.

## Main definitions

* `Keyword` — the eighteen keywords, with `Keyword.name` and `Keyword.ofWord?`.
* `Keyword.form` — the form of the instruction.
* `Keyword.arguments?` — how the arguments are read, for the generic instructions.
-/

namespace Containerfile

/-- The keywords of the instructions. -/
inductive Keyword where
  | ADD
  | ARG
  | CMD
  | COPY
  | ENTRYPOINT
  | ENV
  | EXPOSE
  | FROM
  | HEALTHCHECK
  | LABEL
  | MAINTAINER
  | ONBUILD
  | RUN
  | SHELL
  | STOPSIGNAL
  | USER
  | VOLUME
  | WORKDIR
deriving DecidableEq, Repr

/-- How the arguments of a generic instruction are read. -/
inductive Arguments where
  /-- Words, which refer to variables; or one array in their place, if `execForm` holds. -/
  | words (execForm : Bool)
  /-- The rest of the line, in which a dollar sign is nothing special. -/
  | line
  /-- One array. -/
  | array
deriving DecidableEq, Repr

namespace Keyword

/-- All keywords, in alphabetical order. -/
def all : List Keyword :=
  [ADD, ARG, CMD, COPY, ENTRYPOINT, ENV, EXPOSE, FROM, HEALTHCHECK, LABEL, MAINTAINER, ONBUILD,
    RUN, SHELL, STOPSIGNAL, USER, VOLUME, WORKDIR]

/-- The keyword as a string, in upper case. -/
def toString : Keyword → String
  | ADD => "ADD"
  | ARG => "ARG"
  | CMD => "CMD"
  | COPY => "COPY"
  | ENTRYPOINT => "ENTRYPOINT"
  | ENV => "ENV"
  | EXPOSE => "EXPOSE"
  | FROM => "FROM"
  | HEALTHCHECK => "HEALTHCHECK"
  | LABEL => "LABEL"
  | MAINTAINER => "MAINTAINER"
  | ONBUILD => "ONBUILD"
  | RUN => "RUN"
  | SHELL => "SHELL"
  | STOPSIGNAL => "STOPSIGNAL"
  | USER => "USER"
  | VOLUME => "VOLUME"
  | WORKDIR => "WORKDIR"

/-- The keyword in upper case. -/
def name (k : Keyword) : Text :=
  k.toString.toList

/-- The form of the instruction with this keyword. -/
def form : Keyword → Form
  | FROM => .stage
  | ARG => .arg
  | ENV => .env
  | LABEL => .label
  | RUN | CMD | ENTRYPOINT => .command
  | ONBUILD => .onBuild
  | ADD | COPY | VOLUME | EXPOSE | STOPSIGNAL | USER | WORKDIR | HEALTHCHECK | MAINTAINER
  | SHELL => .generic

/-- How the arguments are read, if the instruction is a generic one. -/
def arguments? : Keyword → Option Arguments
  | ADD | COPY | VOLUME => some (.words true)
  | EXPOSE | STOPSIGNAL | USER | WORKDIR => some (.words false)
  | HEALTHCHECK | MAINTAINER => some .line
  | SHELL => some .array
  | FROM | ARG | ENV | LABEL | RUN | CMD | ENTRYPOINT | ONBUILD => none

/-- Whether a word is this keyword, in any case. -/
def matchesWord (k : Keyword) (word : Text) : Bool :=
  Text.sameLetters k.name word

/-- The keyword that a word is, in any case. -/
def ofWord? (word : Text) : Option Keyword :=
  all.find? (matchesWord · word)

/-- Whether `ONBUILD` may not defer the instruction. -/
def isForbiddenTrigger : Keyword → Bool
  | ONBUILD | FROM | MAINTAINER => true
  | _ => false

end Keyword

end Containerfile
