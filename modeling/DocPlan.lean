import DocPlan.Main
import DocPlan.Proofs.ExportRoutes
import DocPlan.Proofs.Overlay
import DocPlan.Proofs.ExtendsChains
import DocPlan.Proofs.ManifestPaths
import DocPlan.Proofs.CheckedOptions
import DocPlan.Proofs.OptionSources
import DocPlan.Proofs.PluginsAndNames
import DocPlan.Proofs.Settings
import DocPlan.Proofs.Walks
import DocPlan.Proofs.EntryPoints
import DocPlan.Proofs.Subjects
import DocPlan.Proofs.Revalidation
import DocPlan.Proofs.Coherence
import DocPlan.Proofs.WorkspaceRuns
import DocPlan.Proofs.ExportBounds
import DocPlan.Proofs.ManifestReadings
import DocPlan.Proofs.Catalogue
import DocPlan.Proofs.OptionPrecedence
import DocPlan.Proofs.DistinctKeys
import DocPlan.Proofs.Merges
import DocPlan.Proofs.MergeUnions
import DocPlan.Proofs.AlikeMerges
import DocPlan.Proofs.WorkspaceUnions
import DocPlan.Proofs.ExportEdits
import DocPlan.Proofs.Failures
import DocPlan.Proofs.CommentStripping
import DocPlan.Proofs.TextReading
import DocPlan.Proofs.ExportDeclarations
import DocPlan.Proofs.Candidates
import DocPlan.Proofs.RootedPatterns
import DocPlan.Proofs.WorkspaceMembers
import DocPlan.Proofs.PlainListings
import DocPlan.Proofs.WorkspaceExclusions
import DocPlan.Proofs.RootNames
import DocPlan.Proofs.OptionVerdicts
import DocPlan.Proofs.SourceSpans
import DocPlan.Proofs.StrippedCharacters
import DocPlan.Proofs.TrailingCommas
import DocPlan.Proofs.ForgivenTexts
import DocPlan.Proofs.IgnoredSettings
import DocPlan.Proofs.StagedMerges
import DocPlan.Proofs.StarredTargets
import DocPlan.Proofs.StrictRuns
import DocPlan.Proofs.FieldErrors
import DocPlan.Proofs.FileContents
import DocPlan.Proofs.ExtendsSuffixes
import DocPlan.Proofs.AddedNames
import DocPlan.Proofs.DerivedOptions
import DocPlan.Proofs.RequestMembers
import DocPlan.Proofs.NearestManifest
import DocPlan.Proofs.PackageSources
import DocPlan.Proofs.PathLaws
import DocPlan.Proofs.BuiltSets
import DocPlan.Proofs.NameTables
import DocPlan.Proofs.ExportTrees
import DocPlan.Proofs.ExportTables
import DocPlan.Proofs.ConditionOrder
