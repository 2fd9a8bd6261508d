import TypedSexp.Command.Report
import TypedSexp.Diagnostic.Pool
import TypedSexp.Log.Record
import TypedSexp.Main
import TypedSexp.Proofs.Diagnostic.Forms
import TypedSexp.Proofs.Diagnostic.Places
import TypedSexp.Proofs.Diagnostic.Stages
import TypedSexp.Proofs.Expr.Grammar
import TypedSexp.Proofs.Expr.Places
import TypedSexp.Proofs.Expr.Relabel
import TypedSexp.Proofs.Expr.Relocate
import TypedSexp.Proofs.Expr.RoundTrip
import TypedSexp.Proofs.Legacy.Grammar
import TypedSexp.Proofs.Legacy.Lexing
import TypedSexp.Proofs.Program.Takeover
import TypedSexp.Proofs.Program.Termination
import TypedSexp.Proofs.Repl.Lines
import TypedSexp.Proofs.Run.Annotations
import TypedSexp.Proofs.Run.Frame
import TypedSexp.Proofs.Run.Fuel
import TypedSexp.Proofs.Run.Handles
import TypedSexp.Proofs.Run.Lexical
import TypedSexp.Proofs.Run.Lookup
import TypedSexp.Proofs.Run.Numbers
import TypedSexp.Proofs.Run.Places
import TypedSexp.Proofs.Run.Reachable
import TypedSexp.Proofs.Run.Relabel
import TypedSexp.Proofs.Run.Representation
import TypedSexp.Proofs.Session.Batch
import TypedSexp.Proofs.Session.Diagnostics
import TypedSexp.Proofs.Session.Queries
import TypedSexp.Proofs.Session.Recovery
import TypedSexp.Proofs.Session.Soundness
import TypedSexp.Proofs.Sexp.Balance
import TypedSexp.Proofs.Sexp.Lexemes
import TypedSexp.Proofs.Sexp.Slices
import TypedSexp.Proofs.Source.LineCol
import TypedSexp.Proofs.Ty.Equality
import TypedSexp.Proofs.Typing.Termination
import TypedSexp.Proofs.Typing.Weakening
import TypedSexp.Repl
