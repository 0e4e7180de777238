import EmbeddedSql.Host.Scanner
import EmbeddedSql.Report

/-!
# Highlighting a text on its own

A session is a buffer and the settings it is highlighted with. No host editor
tags the buffer: its tags are the ones that the scanner finds in it. A session
and a request are therefore all that a report depends on.
-/

namespace EmbeddedSql

/-- A buffer and its settings. -/
structure Session where
  /-- The buffer. -/
  buffer : Buffer
  /-- The settings in force. -/
  highlighter : Highlighter := {}

namespace Session

/-- The host tags of the buffer. -/
def hostTags (s : Session) : TagIndex := Host.classify s.buffer

/-- The report for a request, or for the whole buffer. -/
def report (s : Session) (request : Option Span) : Report :=
  s.highlighter.report s.buffer s.hostTags (request.getD s.buffer.full)

end Session

end EmbeddedSql
