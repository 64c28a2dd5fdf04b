import LayerOverrides.Configuration.CopyName
import LayerOverrides.Configuration.Files
import LayerOverrides.Json.Name
import LayerOverrides.Proofs.RankOrder
import LayerOverrides.Proofs.Reload
import LayerOverrides.Proofs.WrappedReload
import LayerOverrides.Proofs.Migration
import LayerOverrides.Proofs.AtomicWrite
import LayerOverrides.Proofs.SavedFiles
import LayerOverrides.Proofs.CopyNames
import LayerOverrides.Proofs.Loading
import LayerOverrides.Proofs.WellKept
import LayerOverrides.Proofs.WriteOutcomes
import LayerOverrides.Proofs.Listings
import LayerOverrides.Proofs.SaveAndReset
import LayerOverrides.Proofs.Repairs
import LayerOverrides.Proofs.ByteOrder
import LayerOverrides.Proofs.DirectoryScans
import LayerOverrides.Proofs.ResetRules
import LayerOverrides.Proofs.BuiltInFiles
import LayerOverrides.Proofs.DeclaredVersions
import LayerOverrides.Proofs.KnownKinds
import LayerOverrides.Proofs.CatalogInfluence
import LayerOverrides.Proofs.NestingLimit
import LayerOverrides.Proofs.FirstEntries
import LayerOverrides.Proofs.Refusals
import LayerOverrides.Proofs.MergedSettings
import LayerOverrides.Proofs.BareEntries
import LayerOverrides.Proofs.Insertions
import LayerOverrides.Proofs.ValueSpellings
import LayerOverrides.Proofs.SettingRuns
import LayerOverrides.Proofs.RankNumbers
import LayerOverrides.Proofs.DeclaredDefaults
import LayerOverrides.Proofs.VersionTexts
import LayerOverrides.Proofs.NumberedNames
import LayerOverrides.Proofs.BuiltInNames
import LayerOverrides.Proofs.PathComponents
import LayerOverrides.Proofs.SaveDirectory
