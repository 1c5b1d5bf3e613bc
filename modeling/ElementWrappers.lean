import ElementWrappers.Text.Ranges
import ElementWrappers.Text.Alphabetic
import ElementWrappers.Text.Numeric
import ElementWrappers.Text.Word
import ElementWrappers.Text.Uppercase
import ElementWrappers.Text.Blank
import ElementWrappers.Entries
import ElementWrappers.Path
import ElementWrappers.Naming
import ElementWrappers.Json.Double
import ElementWrappers.Json.Basic
import ElementWrappers.Json.Numeral
import ElementWrappers.Json.Reader
import ElementWrappers.Json.Printer
import ElementWrappers.Json.Decode
import ElementWrappers.Component.Basic
import ElementWrappers.Component.Json
import ElementWrappers.Component.Selection
import ElementWrappers.TypeExpr.Scan
import ElementWrappers.TypeExpr.Normal
import ElementWrappers.TypeExpr.Names
import ElementWrappers.TypeExpr.Shape
import ElementWrappers.TypeExpr.Rename
import ElementWrappers.TypeExpr.Resolve
import ElementWrappers.Component.DocComment
import ElementWrappers.Wrapper.Support
import ElementWrappers.Wrapper.Decorator
import ElementWrappers.Wrapper.Output
import ElementWrappers.Wrapper.ClassText
import ElementWrappers.Wrapper.Basic
import ElementWrappers.OutputFile
import ElementWrappers.ValueAccessor.Basic
import ElementWrappers.ValueAccessor.Source
import ElementWrappers.Target.Basic
import ElementWrappers.Target.Json
import ElementWrappers.Target.Mode
import ElementWrappers.Layout.TypeLocation
import ElementWrappers.Layout.ComponentFiles
import ElementWrappers.Layout.Directives
import ElementWrappers.Layout.ProxyFile
import ElementWrappers.Manifest.Basic
import ElementWrappers.Manifest.ExportMap
import ElementWrappers.Pass.Error
import ElementWrappers.Pass.Plan
import ElementWrappers.Pass.Script
import ElementWrappers.Pass.Store
import ElementWrappers.Pass.Run
import ElementWrappers.Pass.Session
import ElementWrappers.Component.Builder
import ElementWrappers.Text.Utf8
import ElementWrappers.Disk
import ElementWrappers.Version
import ElementWrappers.CommandLine.Arguments
import ElementWrappers.CommandLine.RawPath
import ElementWrappers.CommandLine.Inputs
import ElementWrappers.CommandLine.Run
import ElementWrappers.Main
import ElementWrappers.Proofs.TextLines
import ElementWrappers.Proofs.PathText
import ElementWrappers.Proofs.NormalForm
import ElementWrappers.Proofs.PathParts
import ElementWrappers.Proofs.Specifier
import ElementWrappers.Proofs.RelativePaths
import ElementWrappers.Proofs.ModuleLinks
import ElementWrappers.Proofs.Batch
import ElementWrappers.Proofs.Passes
import ElementWrappers.Proofs.ExportHistory
import ElementWrappers.Proofs.LocalNames
import ElementWrappers.Proofs.WordRename
import ElementWrappers.Proofs.WordSpots
import ElementWrappers.Proofs.WordPlaces
import ElementWrappers.Proofs.Spacing
import ElementWrappers.Proofs.Nesting
import ElementWrappers.Proofs.TypeWords
import ElementWrappers.Proofs.MemberNames
import ElementWrappers.Proofs.TypeShapes
import ElementWrappers.Proofs.Qualify
import ElementWrappers.Proofs.EventTypes
import ElementWrappers.Proofs.Tokens
import ElementWrappers.Proofs.TypeTokens
import ElementWrappers.Proofs.Respacing
import ElementWrappers.Proofs.QualifiedWords
import ElementWrappers.Proofs.KeptWords
import ElementWrappers.Proofs.ExportForms
import ElementWrappers.Proofs.FailedPass
import ElementWrappers.Proofs.ElementTags
import ElementWrappers.Proofs.ClassNames
import ElementWrappers.Proofs.PlannedPaths
import ElementWrappers.Proofs.Confinement
import ElementWrappers.Proofs.ComponentOrder
import ElementWrappers.Proofs.Rehearsal
import ElementWrappers.Proofs.Regeneration
import ElementWrappers.Proofs.Runs
import ElementWrappers.Proofs.JsonRecords
import ElementWrappers.Proofs.BuildRoot
import ElementWrappers.Proofs.SharedManifest
import ElementWrappers.Proofs.Artifacts
import ElementWrappers.Proofs.TypeImports
import ElementWrappers.Proofs.WriteOrder
import ElementWrappers.Proofs.LeftNames
import ElementWrappers.Proofs.Selection
import ElementWrappers.Proofs.ExportMerge
import ElementWrappers.Proofs.RenameOrder
import ElementWrappers.Proofs.KeptLiterals
import ElementWrappers.Proofs.NormalTypes
import ElementWrappers.Proofs.Splitting
import ElementWrappers.Proofs.DocBlocks
import ElementWrappers.Proofs.SourceReading
import ElementWrappers.Proofs.HostEntries
import ElementWrappers.Proofs.OneLine
import ElementWrappers.Proofs.ClassSource
import ElementWrappers.Proofs.PublicSurface
import ElementWrappers.Proofs.ClassMembers
import ElementWrappers.Proofs.AccessorGroups
import ElementWrappers.Proofs.LiteralValues
import ElementWrappers.Proofs.AccessorSelectors
import ElementWrappers.Proofs.PropertyNames
