import JMan.Resolver.Profiles
import JMan.Resolver.Management
import JMan.Resolver.CoordinateText
import JMan.Resolver.Prereleases
import JMan.Resolver.Cycles
import JMan.Resolver.GraphShape
import JMan.Resolver.Exclusions
import JMan.Resolver.Losers
import JMan.Build.ManifestHeader
import JMan.Build.ClassPatterns
import JMan.Build.PackageCache
import JMan.Build.Schedule
import JMan.Build.PropertyAgreement
import JMan.Build.LocalPublication
import JMan.Build.ToolchainRemoval
import JMan.Build.ToolchainInstall
import JMan.Build.TestSources
import JMan.Lsp.IdentifierRanges
import JMan.Lsp.TokenStream
import JMan.Lsp.SelectionRanges
import JMan.Lsp.DocumentOutline
import JMan.Lsp.ProcessorOrder
import JMan.Lsp.ImportEdits
import JMan.Lsp.ChangeSignature
import JMan.Lsp.RenameConflicts
import JMan.Lsp.WorkspaceFolders
import JMan.Lsp.CacheLock
import JMan.Lsp.ProcessorCache
import JMan.Lsp.Sessions
import JMan.Lsp.JmanModels
import JMan.Lsp.Protocol
import JMan.Lsp.Resolve
import JMan.Lsp.Worker
import JMan.Lsp.SemanticCache
import JMan.Cli.Classpaths
import JMan.Cli.Outdated
import JMan.Cli.Staging
import JMan.Cli.Policies
import JMan.Cli.GlobalJava
import JMan.Cli.Prune
import JMan.Cli.Scripts
import JMan.Cli.Boms
import JMan.Cli.CivilDate
import JMan.Cli.TestTree
import JMan.Cli.DependencyPaths
import JMan.Cli.AuditCache
import JMan.Frontend.Wire
import JMan.Frontend.ModuleOverlay
import JMan.Frontend.JavadocSourceIndex
import JMan.Lsp.OverrideFamilies
import JMan.Lsp.ProjectState
import JMan.Format.ImportSection
import JMan.Format.ControlBraces
