import SdlSchema.Cli.ConfigSchema
import SdlSchema.Cli.FileTree
import SdlSchema.Cli.Run
import SdlSchema.Convert.Document
import SdlSchema.Json.Read
import SdlSchema.Main
import SdlSchema.Proofs.Cli.Config
import SdlSchema.Proofs.Cli.Layout
import SdlSchema.Proofs.Cli.Log
import SdlSchema.Proofs.Cli.Run
import SdlSchema.Proofs.Cli.Spelling
import SdlSchema.Proofs.Convert.Arguments
import SdlSchema.Proofs.Convert.Default
import SdlSchema.Proofs.Convert.Nesting
import SdlSchema.Proofs.Convert.Number
import SdlSchema.Proofs.Convert.References
import SdlSchema.Proofs.Convert.RepeatedFields
import SdlSchema.Proofs.Convert.Source
import SdlSchema.Proofs.Convert.Validity
import SdlSchema.Proofs.Schema.Text
