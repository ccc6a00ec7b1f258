import ExprFront.Decl
import ExprFront.Diagnostic
import ExprFront.Dump
import ExprFront.Expr
import ExprFront.Grammar
import ExprFront.Lexical.Lexer
import ExprFront.Lexical.Regex
import ExprFront.Numeral
import ExprFront.Parser
import ExprFront.Source
import ExprFront.Token
import ExprFront.Text
import ExprFront.Proofs.Expr.Shape
import ExprFront.Proofs.Grammar.Spelling
import ExprFront.Proofs.Grammar.Recognition
import ExprFront.Proofs.Grammar.Exact
import ExprFront.Proofs.Lexical.Language
import ExprFront.Proofs.Lexical.Words
import ExprFront.Proofs.Lexical.Longest
import ExprFront.Proofs.Lexical.Scan
import ExprFront.Proofs.Lexical.Layout
import ExprFront.Proofs.Lexical.Boundary
import ExprFront.Proofs.Parser.RoundTrip
import ExprFront.Proofs.Parser.Run
import ExprFront.Proofs.Parser.Respacing
import ExprFront.Proofs.Lexical.Spacing
import ExprFront.Proofs.Parser.Nodes
import ExprFront.Proofs.Source.Lines
import ExprFront.Proofs.Source.Location
import ExprFront.Proofs.Source.Order
import ExprFront.Proofs.Dump.Tree
import ExprFront.Proofs.Dump.Colors
import ExprFront.Proofs.Dump.Walk
import ExprFront.Proofs.Grammar.GivingUp
import ExprFront.Proofs.Parser.Failure
import ExprFront.Proofs.Parser.MissingEof
import ExprFront.Proofs.Parser.Speculation
import ExprFront.Proofs.Numeral.Digits
import ExprFront.Proofs.Lexical.Quoting
import ExprFront.Proofs.Lexical.Names
import ExprFront.Proofs.Numeral.Literals
import ExprFront.Proofs.Numeral.Nearest
import ExprFront.Proofs.Parser.Numbers
import ExprFront.Proofs.Text.Front
import ExprFront.Proofs.Decl.TypeText
import ExprFront.Proofs.Expr.Front
import ExprFront.Proofs.Decl.SignatureText
import ExprFront.Proofs.Parser.Moves
import ExprFront.Proofs.Dump.Stripping
import ExprFront.Proofs.Source.Lookup
import ExprFront.Proofs.Dump.Indentation
