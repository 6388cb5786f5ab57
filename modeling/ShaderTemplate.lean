import ShaderTemplate.CommandLine
import ShaderTemplate.Compiler
import ShaderTemplate.Config.Basic
import ShaderTemplate.Config.Json
import ShaderTemplate.Decimal.Shortest
import ShaderTemplate.Error
import ShaderTemplate.Host.Basic
import ShaderTemplate.Host.Disk
import ShaderTemplate.Host.Fault
import ShaderTemplate.Host.FileTree
import ShaderTemplate.Host.Volume
import ShaderTemplate.Include.Dependencies
import ShaderTemplate.Include.Expansion
import ShaderTemplate.Include.Loading
import ShaderTemplate.Include.Request
import ShaderTemplate.Include.Resolution
import ShaderTemplate.Include.Site
import ShaderTemplate.Log
import ShaderTemplate.Main
import ShaderTemplate.Parser.Balance
import ShaderTemplate.Parser.Chunk
import ShaderTemplate.Parser.Conditional
import ShaderTemplate.Parser.DirectiveLine
import ShaderTemplate.Parser.ImportLine
import ShaderTemplate.Parser.Token
import ShaderTemplate.Path.Basic
import ShaderTemplate.Path.Normal
import ShaderTemplate.Path.Order
import ShaderTemplate.Proofs.Expansion.Chunks
import ShaderTemplate.Proofs.Expansion.Cycles
import ShaderTemplate.Proofs.Expansion.Dependencies
import ShaderTemplate.Proofs.Expansion.EntryFiles
import ShaderTemplate.Proofs.Expansion.ExactDependencies
import ShaderTemplate.Proofs.Expansion.FirstFailure
import ShaderTemplate.Proofs.Expansion.Inlining
import ShaderTemplate.Proofs.Expansion.RelocatedFiles
import ShaderTemplate.Proofs.Expansion.Relocation
import ShaderTemplate.Proofs.Expansion.Reparse
import ShaderTemplate.Proofs.Expansion.Run
import ShaderTemplate.Proofs.Expansion.Schedule
import ShaderTemplate.Proofs.Expansion.Sharing
import ShaderTemplate.Proofs.Expansion.Splice
import ShaderTemplate.Proofs.Expansion.Termination
import ShaderTemplate.Proofs.Host.LastWrite
import ShaderTemplate.Proofs.Parser.Boundary
import ShaderTemplate.Proofs.Parser.BranchEnds
import ShaderTemplate.Proofs.Parser.Branches
import ShaderTemplate.Proofs.Parser.Comments
import ShaderTemplate.Proofs.Parser.DirectiveParts
import ShaderTemplate.Proofs.Parser.Faults
import ShaderTemplate.Proofs.Parser.IncludeSpellings
import ShaderTemplate.Proofs.Parser.LineEndings
import ShaderTemplate.Proofs.Parser.Lines
import ShaderTemplate.Proofs.Parser.Nesting
import ShaderTemplate.Proofs.Parser.Regions
import ShaderTemplate.Proofs.Parser.Tiling
import ShaderTemplate.Proofs.Path.Absolute
import ShaderTemplate.Proofs.Path.Joining
import ShaderTemplate.Proofs.Path.Lexical
import ShaderTemplate.Proofs.Path.Lookups
import ShaderTemplate.Proofs.Path.Relocation
import ShaderTemplate.Proofs.Path.Requests
import ShaderTemplate.Proofs.Source.ExcerptLayout
import ShaderTemplate.Proofs.Template.Concatenation
import ShaderTemplate.Proofs.Template.Decomposition
import ShaderTemplate.Proofs.Template.MarkedNames
import ShaderTemplate.Proofs.Template.ModuleContract
import ShaderTemplate.Proofs.Template.ModuleEncoding
import ShaderTemplate.Proofs.Template.Rendering
import ShaderTemplate.Proofs.Template.SettingOrder
import ShaderTemplate.Proofs.Template.Splicing
import ShaderTemplate.Proofs.Tree.Replacement
import ShaderTemplate.Source.Excerpt
import ShaderTemplate.Source.Position
import ShaderTemplate.Source.SyntaxError
import ShaderTemplate.Template.Basic
import ShaderTemplate.Template.Evaluation
import ShaderTemplate.Template.Identifier
import ShaderTemplate.Template.Module
import ShaderTemplate.Text.Alphanumeric
import ShaderTemplate.Text.Blank
import ShaderTemplate.Text.Bytes
import ShaderTemplate.Text.Pieces
import ShaderTemplate.Tree.Basic
import ShaderTemplate.Tree.Handle
import ShaderTemplate.Value.Basic
import ShaderTemplate.Value.Number
import ShaderTemplate.Value.Options
