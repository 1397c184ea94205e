import Installer.CommandLine.Arguments
import Installer.CommandLine.Disk
import Installer.CommandLine.Report
import Installer.CommandLine.Run
import Installer.Compile.Directories
import Installer.Compile.Document
import Installer.Compile.Features
import Installer.Compile.Ids
import Installer.Dialog.Action
import Installer.Dialog.Basic
import Installer.Dialog.Interface
import Installer.Dialog.Navigation
import Installer.Dialog.Sequence
import Installer.Digest.Guid
import Installer.Digest.Sha
import Installer.Directory.Declaration
import Installer.Directory.Outline
import Installer.Directory.Tree
import Installer.Formatted
import Installer.Identifier.Allocator
import Installer.Identifier.Folder
import Installer.Identifier.Name
import Installer.Identifier.Session
import Installer.Json.Basic
import Installer.Json.Decode
import Installer.Json.Printer
import Installer.Json.Reader
import Installer.Json.Token
import Installer.Main
import Installer.Manifest.Basic
import Installer.Manifest.Decode
import Installer.Manifest.Encode
import Installer.Markup.Element
import Installer.Markup.Render
import Installer.Payload.File
import Installer.Payload.Placement
import Installer.Payload.Setting
import Installer.Product
import Installer.Project
import Installer.Proofs.AcceptedManifests
import Installer.Proofs.AllocatorRuns
import Installer.Proofs.ArenaLinks
import Installer.Proofs.CanonicalManifests
import Installer.Proofs.CharacterData
import Installer.Proofs.ChosenIds
import Installer.Proofs.CommandLine.Storage
import Installer.Proofs.Compile.Complaints
import Installer.Proofs.Compile.Contents
import Installer.Proofs.Compile.DocumentParts
import Installer.Proofs.Compile.Elision
import Installer.Proofs.Compile.FeatureForest
import Installer.Proofs.Compile.FeatureReferences
import Installer.Proofs.Compile.Identities
import Installer.Proofs.Compile.Layouts
import Installer.Proofs.Compile.LegalParts
import Installer.Proofs.Compile.MentionedFeatures
import Installer.Proofs.Compile.Mentions
import Installer.Proofs.Compile.NamedFeatures
import Installer.Proofs.Compile.Numbering
import Installer.Proofs.Compile.Pieces
import Installer.Proofs.Compile.Policies
import Installer.Proofs.Compile.Quiet
import Installer.Proofs.Compile.Reported
import Installer.Proofs.Compile.Rooms
import Installer.Proofs.Compile.Surroundings
import Installer.Proofs.ComponentIds
import Installer.Proofs.ComponentReferences
import Installer.Proofs.DeclaredFeatures
import Installer.Proofs.Dialog.Calls
import Installer.Proofs.Dialog.Graph
import Installer.Proofs.DialogRoutes
import Installer.Proofs.Directory.Arena
import Installer.Proofs.Directory.Deposits
import Installer.Proofs.Directory.Frames
import Installer.Proofs.Directory.Grants
import Installer.Proofs.Directory.Growth
import Installer.Proofs.Directory.Inventory
import Installer.Proofs.Directory.Laying
import Installer.Proofs.Directory.Levels
import Installer.Proofs.Directory.Names
import Installer.Proofs.Directory.Outlines
import Installer.Proofs.Directory.Payloads
import Installer.Proofs.Directory.Segments
import Installer.Proofs.Directory.Trails
import Installer.Proofs.DirectoryAttributes
import Installer.Proofs.DirectoryFrames
import Installer.Proofs.DirectoryIds
import Installer.Proofs.EmptyDirectories
import Installer.Proofs.FailedWrites
import Installer.Proofs.FeatureAssignment
import Installer.Proofs.FormattedTexts
import Installer.Proofs.IdReport
import Installer.Proofs.Identifier.Forms
import Installer.Proofs.Identifier.Freshness
import Installer.Proofs.Identifier.Generations
import Installer.Proofs.Identifier.Legal
import Installer.Proofs.Identifier.Requests
import Installer.Proofs.Identifier.Spelling
import Installer.Proofs.Identifier.Suffixes
import Installer.Proofs.Identifier.Views
import Installer.Proofs.InstallationDirectory
import Installer.Proofs.InstalledDirectories
import Installer.Proofs.Json.Exactness
import Installer.Proofs.Json.Grammar
import Installer.Proofs.Json.Nesting
import Installer.Proofs.Json.ReadBack
import Installer.Proofs.Json.Records
import Installer.Proofs.Json.Reordering
import Installer.Proofs.Json.Spelling
import Installer.Proofs.LegalIds
import Installer.Proofs.LosslessRendering
import Installer.Proofs.Manifest.Items
import Installer.Proofs.Manifest.Parts
import Installer.Proofs.Manifest.References
import Installer.Proofs.Manifest.Reordering
import Installer.Proofs.Manifest.Sites
import Installer.Proofs.Markup.AttributeNames
import Installer.Proofs.Markup.Sections
import Installer.Proofs.Markup.Tags
import Installer.Proofs.Markup.Within
import Installer.Proofs.MissingValues
import Installer.Proofs.NameCollisions
import Installer.Proofs.NavigationGraph
import Installer.Proofs.PayloadConservation
import Installer.Proofs.PlacedSettings
import Installer.Proofs.PrefixTree
import Installer.Proofs.PrefixWalks
import Installer.Proofs.PublishedActions
import Installer.Proofs.RearrangedManifests
import Installer.Proofs.RegisteredDialogs
import Installer.Proofs.RegisteredFeatures
import Installer.Proofs.Schema.Taking
import Installer.Proofs.Schema.Writing
import Installer.Proofs.SpelledDirectories
import Installer.Proofs.StableGuids
import Installer.Proofs.StaleCaches
import Installer.Proofs.Text.Pieces
import Installer.Proofs.VerbatimAttributes
import Installer.Proofs.VersionTexts
import Installer.Proofs.WholeDeclarations
import Installer.Proofs.WrittenElements
import Installer.Schema.Attributes
import Installer.Schema.Basic
import Installer.Schema.Field
import Installer.Text.Basic
import Installer.Text.Casing
import Installer.Text.Pieces
import Installer.Version
